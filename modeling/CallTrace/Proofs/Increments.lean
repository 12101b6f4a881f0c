import CallTrace.Proofs.Evaluation.Growing
import CallTrace.Proofs.Storage

/-! # Increments

A step by one and the compound assignment of one are evaluated by different rules, each with its own check of
the result and its own wording of an overflow. On integers and truth values they come to the same.

* `stepBy_eq_binaryOp`: the two rules give the same value or the same error.
* `Slot.Steady`: a slot whose string is still there if it names a character. A resolved one is steady
  (`Exec.steady_of_resolve`), and where it holds an integer it can be written (`Exec.writeSlot_of_integer`).
* `Exec.stepping_eq`, `Exec.compound_eq`: both replace what is in the slot, by `Exec.replacing`.
* `Exec.increment_eq_compound`: steps before and after their operand against compound assignments.
-/

namespace CallTrace
set_option autoImplicit false

open Instrumented (Expr Place Step lowerExpr lowerPlace)

namespace Instrumented

/-- The operator of the compound assignment that does what a step does. -/
def Step.op : Step → BinOp
  | .up => .add
  | .down => .sub

/-- The written operator of a step, before its operand or after it. -/
def Step.unOp : Step → Bool → UnOp
  | .up, true => .preInc
  | .up, false => .postInc
  | .down, true => .preDec
  | .down, false => .postDec

theorem lowerExpr_step (s : Step) (before : Bool) (e : Surface.Expr) (p : Pos) :
    lowerExpr (.unary (s.unOp before) e p) = (lowerPlace e).map fun t => .update t s before := by
  cases s <;> cases before <;> simp only [Step.unOp, lowerExpr] <;> cases lowerPlace e <;> rfl

theorem lowerExpr_compound (op : BinOp) (e : Surface.Expr) (n : Int) (p q : Pos) :
    lowerExpr (.compound e op (.int n p) q) = (lowerPlace e).map fun t => .assign t (some op) (.int n) := by
  simp only [lowerExpr]
  cases lowerPlace e <;> rfl

end Instrumented

/-! ## Steps by one as operators -/

section

variable {v : Value} {a : Int}

theorem Value.isStr_of_int (hv : v.int? = some a) : v.isStr = false := by
  cases v <;> simp_all [Value.int?, Value.isStr]

/-- The sum, the difference and the product of integers are those of `intArith`. -/
theorem binaryOp_of_int {w : Value} {b : Int} (hv : v.int? = some a) (hw : w.int? = some b) (h : Heap) {op : BinOp}
    {r : Except Cause Value} (hop : intArith op a b = some r) : binaryOp h op v w = r := by
  have harith : arith op v w = r := by simp [arith, hv, hw, hop]
  cases op
  case add => simp [binaryOp, addValues, Value.isStr_of_int hv, Value.isStr_of_int hw, harith]
  case sub | mul | div | mod => simp [binaryOp, harith]
  all_goals simp [intArith] at hop

/-- The wording of an overflow. -/
def overflowText (op : BinOp) (a b : Int) : String := toString a ++ " " ++ op.symbol ++ " " ++ toString b

theorem stepBy_of_int (hv : v.int? = some a) (s : Step) :
    stepBy s.delta v = checked (a + s.delta) (overflowText s.op a 1) := by
  have hone : toString (1 : Int) = "1" := by decide
  have htext : toString a ++ (if 0 < s.delta then " + 1" else " - 1") = overflowText s.op a 1 := by
    cases s <;> simp [overflowText, Step.delta, Step.op, BinOp.symbol, hone, String.append_assoc]
  rw [← htext]
  cases v with
  | int n =>
    cases hv
    rfl
  | bool b =>
    cases hv
    rfl
  | _ => cases hv

/-- A step by one is the operator applied to one. -/
theorem stepBy_eq_binaryOp (hv : v.int? = some a) (s : Step) (h : Heap) :
    binaryOp h s.op v (.int 1) = stepBy s.delta v := by
  have hone : (Value.int 1).int? = some 1 := rfl
  rw [stepBy_of_int hv]
  cases s with
  | up => exact binaryOp_of_int hv hone h rfl
  | down => exact binaryOp_of_int hv hone h rfl

end

/-! ## Slots that hold integers -/

/-- A variable that can be looked up can be assigned to. -/
theorem CallStack.exists_assign {s : CallStack} {name : String} {v : Value} (h : s.lookup name = some v) (w : Value) :
    ∃ t, s.assign? name w = some t := by
  obtain ⟨globals, frames, n, hn⟩ := s
  unfold assign?
  split
  · exact ⟨_, rfl⟩
  · next hlocal =>
    have hglobal : globals.lookup name = some v := by
      cases frames with
      | nil => exact h
      | cons f rest =>
        have hnone : f.lookup name = none := by simpa [isLocal] using hlocal
        simpa [lookup, hnone] using h
    rw [if_pos (by simp [hglobal])]
    exact ⟨_, rfl⟩

/-- A slot that names a character names one of a string. -/
def Slot.Steady (m : Machine) : Slot → Prop
  | .char owner _ => ∃ s, owner.content m = .ok (.str s)
  | _ => True

namespace Exec

variable {env : Env} {fuel : Nat} {m n o : Machine} {slot : Slot} {v old w : Value} {a : Int}

theorem steady_of_elementSlot {owner : Slot} {i : Int} (h : elementSlot owner i m = .ok slot n) : slot.Steady n := by
  obtain ⟨v, o, hread, hslot⟩ := ok_of_bind h
  obtain ⟨hcontent, rfl⟩ := readSlot_ok hread
  cases v with
  | list c =>
    cases hslot
    trivial
  | str s =>
    cases hslot
    exact ⟨s, hcontent⟩
  | _ => cases hslot

/-- What a place is resolved to is steady. -/
theorem steady_of_resolve {e : Expr} (h : (meaning env fuel).resolve e m = .ok slot n) : slot.Steady n := by
  cases fuel with
  | zero => cases h
  | succ fuel =>
    cases e with
    | var name =>
      cases h
      trivial
    | index base index =>
      obtain ⟨owner, o₁, -, h⟩ := ok_of_bind h
      obtain ⟨i, o₂, -, h⟩ := ok_of_bind h
      obtain ⟨k, o₃, -, hslot⟩ := ok_of_bind h
      exact steady_of_elementSlot hslot
    | _ => cases h

/-- A steady slot that holds an integer is no character, so it can be written and keeps any value as it is. -/
theorem writeSlot_of_integer (hs : slot.Steady m) (hold : slot.content m = .ok old) (ha : old.int? = some a) (w : Value) :
    ∃ n, writeSlot slot w m = .ok () n ∧ slot.content n = .ok w := by
  cases slot with
  | var name =>
    cases hlookup : m.stack.lookup name with
    | none => simp [Slot.content, hlookup] at hold
    | some v =>
      obtain ⟨t, ht⟩ := CallStack.exists_assign hlookup w
      refine ⟨{ m with stack := t }, ?_, ?_⟩
      · simp [writeSlot, assign, ht]
      · simp [Slot.content, CallStack.lookup_assign_self ht]
  | item c i =>
    have hpos : ∃ k, position i (m.heap.items c).size = .ok k := by
      simp only [Slot.content, itemOf] at hold
      cases hk : position i (m.heap.items c).size with
      | ok k => exact ⟨k, rfl⟩
      | error cause =>
        rw [hk] at hold
        cases hold
    obtain ⟨k, hk⟩ := hpos
    have hwrite : writeSlot (.item c i) w m =
        .ok () { m with heap := m.heap.update c fun items => items.setIfInBounds k w } := by
      simp only [writeSlot, get_bind, hk]
      rfl
    obtain ⟨u, hkept, hcontent⟩ := content_of_writeSlot hwrite
    cases hkept
    exact ⟨_, hwrite, hcontent⟩
  | char owner i =>
    -- What a string has at a position is a string.
    obtain ⟨s, hstr⟩ := hs
    simp only [Slot.content, hstr] at hold
    have hitem : itemOf m.heap (.str s) i = .ok old := hold
    rw [itemOf_str] at hitem
    cases hk : position i s.length with
    | ok k =>
      rw [hk] at hitem
      cases hitem
      cases ha
    | error cause =>
      rw [hk] at hitem
      cases hitem

/-! ## Replacing what a slot holds -/

/-- Recording changes nothing that a slot can hold. -/
theorem content_recordRoot (root : Option String) (m : Machine) (slot : Slot) :
    ∃ n, recordRoot root m = .ok () n ∧ slot.content n = slot.content m := by
  cases h : recordRoot root m with
  | error x n => cases root <;> cases h
  | ok u n =>
    obtain ⟨hheap, hstack⟩ := (Still.recordRoot root).ok m u n h
    refine ⟨n, rfl, ?_⟩
    clear h
    induction slot with
    | var name => simp only [Slot.content, hstack]
    | item c i => simp only [Slot.content, hheap]
    | char owner i ih => simp only [Slot.content, hheap, ih]

/-- Replaces what a slot holds and records the variable. -/
def replacing (slot : Slot) (f : Value → Except Cause Value) (root : Option String) (before : Bool) : Exec Value := do
  let (old, new) ← updateSlot slot f
  recordRoot root
  return if before then new else old

/-- How an integer in a slot is replaced: nothing is changed where there is no new value; and a new value is written
once, recorded once, and can be read afterwards. -/
structure Replaces (slot : Slot) (f : Value → Except Cause Value) (root : Option String) (old : Value) (m : Machine) : Prop where
  fails : ∀ cause, f old = .error cause → ∀ before, replacing slot f root before m = .error (.failed ⟨cause, m.line⟩) m
  writes : ∀ new, f old = .ok new → ∃ n q, writeSlot slot new m = .ok () n ∧ recordRoot root n = .ok () q ∧
    slot.content q = .ok new ∧ ∀ before, replacing slot f root before m = .ok (if before then new else old) q

section

variable {f : Value → Except Cause Value} {root : Option String} {x : Halt}

/-- Whether the new value or the old one is asked for makes no difference to the state. -/
theorem replacing_after_ok (h : replacing slot f root true m = .ok v n) :
    ∃ old, slot.content m = .ok old ∧ replacing slot f root false m = .ok old n := by
  obtain ⟨⟨old, new⟩, o, hupdate, h⟩ := ok_of_bind h
  obtain ⟨_, q, hrecord, h⟩ := ok_of_bind h
  cases h
  refine ⟨old, ?_, (bind_of_ok hupdate).trans (bind_of_ok hrecord)⟩
  obtain ⟨old', o₁, hread, hrest⟩ := ok_of_bind hupdate
  obtain ⟨hcontent, rfl⟩ := readSlot_ok hread
  obtain ⟨new', o₂, -, hrest⟩ := ok_of_bind hrest
  obtain ⟨_, o₃, -, hrest⟩ := ok_of_bind hrest
  cases hrest
  exact hcontent

theorem replacing_after_error (h : replacing slot f root true m = .error x n) :
    replacing slot f root false m = .error x n := by
  rcases error_of_bind h with hupdate | ⟨⟨old, new⟩, o, hupdate, h⟩
  · exact bind_of_error hupdate
  rcases error_of_bind h with hrecord | ⟨_, q, -, h⟩
  · exact (bind_of_ok hupdate).trans (bind_of_error hrecord)
  · cases h

end

theorem replaces_of_integer (hs : slot.Steady m) (hold : slot.content m = .ok old) (ha : old.int? = some a)
    (f : Value → Except Cause Value) (root : Option String) : Replaces slot f root old m := by
  have hread := readSlot_of_ok hold
  constructor
  case fails =>
    intro cause hf before
    have hupdate : updateSlot slot f m = .error (.failed ⟨cause, m.line⟩) m := by
      refine (bind_of_ok hread).trans (bind_of_error ?_)
      rw [hf]
      rfl
    exact bind_of_error hupdate
  case writes =>
    intro new hf
    obtain ⟨n, hwrite, hcontent⟩ := writeSlot_of_integer hs hold ha new
    obtain ⟨q, hrecord, hsame⟩ := content_recordRoot root n slot
    have hupdate : updateSlot slot f m = .ok (old, new) n := by
      refine (bind_of_ok hread).trans ?_
      rw [hf]
      exact bind_of_ok hwrite
    refine ⟨n, q, hwrite, hrecord, hsame.trans hcontent, fun before => ?_⟩
    exact (bind_of_ok hupdate).trans (bind_of_ok hrecord)

/-- Only what is done to the value that the slot holds matters. -/
theorem updateSlot_congr {f g : Value → Except Cause Value} (h : ∀ old, slot.content m = .ok old → f old = g old) :
    updateSlot slot f m = updateSlot slot g m := by
  cases hold : slot.content m with
  | error cause =>
    have hread := readSlot_of_error hold
    exact (bind_of_error hread).trans (bind_of_error hread).symm
  | ok old =>
    have hread := readSlot_of_ok hold
    refine (bind_of_ok hread).trans (Eq.trans ?_ (bind_of_ok hread).symm)
    rw [h old hold]

/-- A step replaces what is in the slot of its place. -/
theorem stepping_eq {target : Place} (p : Meaning) (s : Step) (before : Bool)
    (hslot : p.resolve target.toExpr m = .ok slot o) :
    stepping p target s before m = replacing slot (stepBy s.delta) target.root? before o := bind_of_ok hslot

/-- A compound assignment replaces what is in the slot once the operand has its value. -/
theorem compound_eq {target : Place} (p : Meaning) (op : BinOp) {e : Expr}
    (hslot : p.resolve target.toExpr m = .ok slot n) (he : p.eval e n = .ok v o) :
    assignment p target (some op) e m =
      replacing slot (fun old => binaryOp o.heap op old v) target.root? true o := by
  refine (bind_of_ok hslot).trans ((bind_of_ok he).trans ?_)
  cases hold : slot.content o with
  | error cause =>
    have hread := readSlot_of_error hold
    simp only [replacing, stored, updateSlot, bind_assoc, bind_of_error hread]
  | ok old =>
    have hread := readSlot_of_ok hold
    simp only [replacing, stored, updateSlot, bind_assoc, bind_of_ok hread, get_bind, pure_bind]
    rfl

/-! ## Steps and compound assignments -/

/-- The value of a place is an integer or a truth value, once its index expressions have been evaluated. -/
def HoldsInteger (env : Env) (fuel : Nat) (m : Machine) (target : Place) : Prop :=
  ∀ slot o v, (meaning env fuel).resolve target.toExpr m = .ok slot o → slot.content o = .ok v → ∃ a, v.int? = some a

/-- What a step by one does to a place, told by the compound assignment of one. -/
structure Increments (env : Env) (fuel : Nat) (m : Machine) (target : Place) (s : Step) : Prop where
  /-- Before its operand a step is the compound assignment. -/
  before : (meaning env (fuel + 1)).eval (.update target s true) m =
    (meaning env (fuel + 1)).eval (.assign target (some s.op) (.int 1)) m
  /-- After its operand it leads to the same state, and its value is what the slot held. -/
  after_ok : ∀ v n, (meaning env (fuel + 1)).eval (.assign target (some s.op) (.int 1)) m = .ok v n →
    ∃ slot o old, (meaning env fuel).resolve target.toExpr m = .ok slot o ∧ slot.content o = .ok old ∧
      (meaning env (fuel + 1)).eval (.update target s false) m = .ok old n
  after_error : ∀ x n, (meaning env (fuel + 1)).eval (.assign target (some s.op) (.int 1)) m = .error x n →
    (meaning env (fuel + 1)).eval (.update target s false) m = .error x n
  /-- The place is resolved once, written once and recorded if the result fits. -/
  fits : ∀ slot o old a, (meaning env fuel).resolve target.toExpr m = .ok slot o → slot.content o = .ok old →
    old.int? = some a → inRange (a + s.delta) → ∃ n q, writeSlot slot (.int (a + s.delta)) o = .ok () n ∧
      recordRoot target.root? n = .ok () q ∧ slot.content q = .ok (.int (a + s.delta)) ∧
      (meaning env (fuel + 1)).eval (.assign target (some s.op) (.int 1)) m = .ok (.int (a + s.delta)) q
  /-- Nothing is written or recorded if it does not. -/
  overflows : ∀ slot o old a, (meaning env fuel).resolve target.toExpr m = .ok slot o → slot.content o = .ok old →
    old.int? = some a → ¬ inRange (a + s.delta) →
      (meaning env (fuel + 1)).eval (.assign target (some s.op) (.int 1)) m =
        .error (.failed ⟨.overflow (overflowText s.op a 1), o.line⟩) o

section

variable {target : Place} {s : Step}

/-- On an integer the compound assignment of one does to the slot what the step does. -/
theorem compound_one (hint : HoldsInteger env fuel m target)
    (hslot : (meaning env fuel).resolve target.toExpr m = .ok slot o) :
    (meaning env (fuel + 1)).eval (.assign target (some s.op) (.int 1)) m =
      replacing slot (stepBy s.delta) target.root? true o := by
  have hone : (meaning env fuel).eval (.int 1) o = .ok (.int 1) o := by
    cases fuel with
    | zero => cases hslot
    | succ fuel => rfl
  have hsame : updateSlot slot (fun old => binaryOp o.heap s.op old (.int 1)) o = updateSlot slot (stepBy s.delta) o := by
    apply updateSlot_congr
    intro old hold
    obtain ⟨a, ha⟩ := hint slot o old hslot hold
    exact stepBy_eq_binaryOp ha s o.heap
  exact (compound_eq _ _ hslot hone).trans (bind_congr_at hsame _)

/-- A step on an integer replaces it. -/
theorem replaces_step (hslot : (meaning env fuel).resolve target.toExpr m = .ok slot o)
    (hold : slot.content o = .ok old) (ha : old.int? = some a) :
    Replaces slot (stepBy s.delta) target.root? old o :=
  replaces_of_integer (steady_of_resolve hslot) hold ha _ _

theorem increments_of_integer (hint : HoldsInteger env fuel m target) : Increments env fuel m target s := by
  cases hslot : (meaning env fuel).resolve target.toExpr m with
  | error x o =>
    have hupdate (before : Bool) : (meaning env (fuel + 1)).eval (.update target s before) m = .error x o :=
      bind_of_error hslot
    have hassign : (meaning env (fuel + 1)).eval (.assign target (some s.op) (.int 1)) m = .error x o :=
      bind_of_error hslot
    constructor
    case before => rw [hupdate, hassign]
    case after_ok =>
      intro v n h
      cases hassign.symm.trans h
    case after_error =>
      intro y n h
      rw [hupdate, ← hassign, h]
    all_goals
      intro slot o' old a h
      cases hslot.symm.trans h
  | ok slot o =>
    have hupdate (before : Bool) : (meaning env (fuel + 1)).eval (.update target s before) m =
        replacing slot (stepBy s.delta) target.root? before o := stepping_eq _ s before hslot
    have hassign : (meaning env (fuel + 1)).eval (.assign target (some s.op) (.int 1)) m =
        replacing slot (stepBy s.delta) target.root? true o := compound_one hint hslot
    constructor
    case before => rw [hupdate, hassign]
    case after_ok =>
      intro v n h
      obtain ⟨old, hold, hafter⟩ := replacing_after_ok (hassign.symm.trans h)
      exact ⟨slot, o, old, hslot, hold, (hupdate false).trans hafter⟩
    case after_error =>
      intro x n h
      exact (hupdate false).trans (replacing_after_error (hassign.symm.trans h))
    case fits =>
      intro slot' o' old a h hold ha hfits
      cases hslot.symm.trans h
      have hstep : stepBy s.delta old = .ok (.int (a + s.delta)) := by
        rw [stepBy_of_int ha, checked, if_pos hfits]
      obtain ⟨n, q, hwrite, hrecord, hcontent, hwritten⟩ := (replaces_step hslot hold ha).writes _ hstep
      exact ⟨n, q, hwrite, hrecord, hcontent, hassign.trans (hwritten true)⟩
    case overflows =>
      intro slot' o' old a h hold ha hfits
      cases hslot.symm.trans h
      have hstep : stepBy s.delta old = .error (.overflow (overflowText s.op a 1)) := by
        rw [stepBy_of_int ha, checked, if_neg hfits]
      rw [hassign, (replaces_step hslot hold ha).fails _ hstep]

end

/-- A step by one before its operand is the compound assignment of one, on every place that holds an integer or a
truth value: the same expressions are refused, and the same is evaluated, stored and recorded, or fails in the same
way. A step after its operand differs in nothing but its value. -/
theorem increment_eq_compound (e : Surface.Expr) (s : Step) (p q r : Pos) :
    (∀ before, lowerExpr (.unary (s.unOp before) e p) = (lowerPlace e).map fun t => .update t s before) ∧
    (lowerExpr (.compound e s.op (.int 1 q) r) = (lowerPlace e).map fun t => .assign t (some s.op) (.int 1)) ∧
    ∀ env fuel m target, HoldsInteger env fuel m target → Increments env fuel m target s :=
  ⟨fun before => Instrumented.lowerExpr_step s before e p, Instrumented.lowerExpr_compound s.op e 1 q r,
    fun _ _ _ _ hint => increments_of_integer hint⟩

/-- A call with `i = 0` and `xs = [41]`. -/
def counting : Machine :=
  let stack := ((CallStack.empty.pushFrame "main").declare "i" (.int 0)).declare "xs" (.list 0)
  { Machine.initial with heap := ⟨#[#[.int 41]]⟩, stack }

/-- The place `xs[i++]`. -/
def countedItem : Place := .index (.var "xs") (.update (.var "i") .up false)

/-- `++xs[i++]` is `xs[i++] += 1`, which takes the first item to 42 and `i` to 1. -/
theorem increments_counting : HoldsInteger emptyEnv 3 counting countedItem ∧
    Increments emptyEnv 3 counting countedItem .up ∧
    ∃ n, (meaning emptyEnv 4).eval (.update countedItem .up true) counting = .ok (.int 42) n ∧
      n.heap.items 0 = #[.int 42] ∧ n.stack.lookup "i" = some (.int 1) := by
  have hresolved : (meaning emptyEnv 3).resolve countedItem.toExpr counting =
      .ok (.item 0 0) { counting with stack := counting.stack.updateCurrent (·.assign "i" (.int 1)) } := by rfl
  have hint : HoldsInteger emptyEnv 3 counting countedItem := by
    intro slot o v hslot hv
    cases hresolved.symm.trans hslot
    cases hv
    exact ⟨41, rfl⟩
  obtain ⟨-, -, h⟩ := increment_eq_compound (.var "xs" default) .up default default default
  refine ⟨hint, h emptyEnv 3 counting _ hint, _, rfl, ?_, ?_⟩
  · rfl
  · rfl

end Exec

end CallTrace
