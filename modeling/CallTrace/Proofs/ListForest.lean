import CallTrace.Proofs.Evaluation.Orderly
import CallTrace.Proofs.Heap.Walk

/-! # No program makes a list hold itself

Everything that is stored in a list is a copy that has just been made, also when a list is appended to itself,
assigned to one of its own items, or reached through a reference. So lists form a forest, and no walk through a
value goes on for ever.

* `Exec.Passed env m`: a run of the program passes through the state `m`.
* `Exec.Held env m v`: the value `v` can be held there, by a variable, by a list, or by what is going on.
* `Exec.lists_form_forest`: the lists of `m` form a forest, and walks through `v` come to their end.
-/

namespace CallTrace
set_option autoImplicit false

open Instrumented (Expr Stmt)

/-- The list that the slot belongs to. -/
def Slot.list? : Slot → Option Value
  | .var _ => none
  | .item c _ => some (.list c)
  | .char owner _ => owner.list?

theorem Slot.Has.of_list? {m : Machine} {v : Value} {slot : Slot} (hs : slot.Has m)
    (hv : slot.list? = some v) : m.heap.Has v := by
  induction slot with
  | var name => cases hv
  | item c i =>
    cases hv
    exact hs
  | char owner i ih => exact ih hs hv

namespace Exec

variable {env : Env} {m n : Machine} {v : Value}

theorem Preserves.after {α : Type} {stop : Machine → Prop} {post : α → Machine → Prop} {c : Exec α}
    (h : Preserves stop m post (fun _ => c) n) : Growing m (c.after n) := by
  unfold Exec.after
  split
  · next hc => exact (h.of_ok hc).1
  · next hc => exact h.of_error hc

/-- A run of the program passes through a state: a task begins there or ends there, or the run is over. -/
inductive Passed (env : Env) : Machine → Prop where
  | begun {k : Nat} {t : Task} {m : Machine} (h : Reached env k t m) : Passed env m
  | ended {k : Nat} {t : Task} {m : Machine} (h : Reached env k t m) :
      Passed env (((meaning env k).attempt t).after m)
  | finished (k : Nat) : Passed env ((runProgram (meaning env k) env).after .initial)

/-- The values that can be held in a state: those of variables, also of hidden ones and those of callers, the
items of lists, what a task begins with, what it gives, and what was held when it began. -/
inductive Held (env : Env) : Machine → Value → Prop where
  | owned {m : Machine} {f : Frame} {v : Value} (h : Passed env m) (hf : f ∈ m.stack.owners)
      (hv : f.Holds v) : Held env m v
  | item {m : Machine} {c : CellId} {v : Value} (h : Passed env m) (hv : v ∈ m.heap.items c) :
      Held env m v
  | argument {k : Nat} {t : Task} {m : Machine} {v : Value} (h : Reached env k t m)
      (hv : v ∈ t.hand) : Held env m v
  | value {k : Nat} {e : Expr} {m n : Machine} {v : Value} (h : Reached env k (.eval e) m)
      (hv : (meaning env k).eval e m = .ok v n) : Held env n v
  | place {k : Nat} {e : Expr} {m n : Machine} {slot : Slot} {v : Value}
      (h : Reached env k (.resolve e) m) (hs : (meaning env k).resolve e m = .ok slot n)
      (hv : slot.list? = some v) : Held env n v
  | result {k : Nat} {name : String} {args : List Value} {m n : Machine} {v : Value}
      (h : Reached env k (.call name args) m) (hv : (meaning env k).call name args m = .ok v n) :
      Held env n v
  | returned {k : Nat} {s : Stmt} {m n : Machine} {flow : Flow} {v : Value}
      (h : Reached env k (.run s) m) (hflow : (meaning env k).run s m = .ok flow n)
      (hv : flow.returned? = some v) : Held env n v
  | kept {k : Nat} {t : Task} {m : Machine} {v : Value} (h : Reached env k t m) (hv : Held env m v) :
      Held env (((meaning env k).attempt t).after m) v

theorem growing_after {k : Nat} {t : Task} (h : Reached env k t m) :
    Growing m (((meaning env k).attempt t).after m) :=
  have ⟨hm, hhand⟩ := ordered_of_reached h
  ((orderly_meaning (fun _ => False) env k).attempt_preserves hm hhand).after

theorem ordered_of_passed (h : Passed env m) : m.Ordered := by
  cases h with
  | begun h => exact (ordered_of_reached h).1
  | ended h => exact (growing_after h).ordered
  | finished k =>
    have horderly := orderly_meaning (fun _ => False) env k
    exact (horderly.runProgram_preserves Machine.ordered_initial).after.ordered

/-- The lists that can be held exist. -/
theorem has_of_held (h : Held env m v) : m.heap.Has v := by
  have horderly (k : Nat) := orderly_meaning (fun _ => False) env k
  induction h with
  | owned h hf hv => exact (ordered_of_passed h).vars _ hf _ hv
  | item h hv => exact (ordered_of_passed h).forest.has_of_mem hv
  | argument h hv => exact (ordered_of_reached h).2 _ hv
  | @value k e m n v h hv => exact (((horderly k).eval e (ordered_of_reached h).1).of_ok hv).2
  | @place k e m n slot v h hs hv =>
    exact (((horderly k).resolve e (ordered_of_reached h).1).of_ok hs).2.of_list? hv
  | @result k name args m n v h hv =>
    obtain ⟨hm, hargs⟩ := ordered_of_reached h
    exact (((horderly k).call name hm hargs).of_ok hv).2
  | @returned k s m n flow v h hflow hv =>
    exact (((horderly k).run s (ordered_of_reached h).1).of_ok hflow).2 v hv
  | kept h hv ih => exact (growing_after h).has ih

/-- In every state that a run passes through, no list is reached from its own items, every list stands at one
position of one list at most, and the walks through every value that can be held there come to their end. -/
theorem lists_form_forest (h : Passed env m) :
    (∀ c v, v ∈ m.heap.items c → ¬ m.heap.Reaches v c) ∧
    (∀ c c' i i' d, m.heap.Edge c i d → m.heap.Edge c' i' d → c = c' ∧ i = i') ∧
    ∀ v, Held env m v → m.heap.Has v ∧ m.heap.Walks v := by
  have hforest : m.heap.Forest := (ordered_of_passed h).forest
  refine ⟨fun c v hv => hforest.acyclic hv, hforest.unique, fun v hv => ?_⟩
  have hhas : m.heap.Has v := has_of_held hv
  exact ⟨hhas, (hforest.grounded_of_has hhas).walks⟩

/-! ## An example -/

/-- An entry function with a list that is appended to itself through a reference, which is returned. -/
def selfAppending : Instrumented.Function where
  name := "main"
  params := []
  body := [
    .act 2 true (.declare "xs" (.list [.int 1]) false),
    .act 3 true (.declare "r" (.var "xs") true),
    .act 4 true (.eval (.container .append (.var "r") [.var "xs"])),
    .ret 5 true (some (.var "r"))]
  line := 1
  endLine := 6

def selfAppendingEnv : Env where
  program := { functions := [selfAppending], driver := [], degradations := [] }
  config := .default

/-- The state in which the call of `selfAppending` has ended. -/
def selfAppended : Machine :=
  ((meaning selfAppendingEnv 8).attempt (.call "main" [])).after { Machine.initial with line := 1 }

/-- The list that is returned holds `1` and a list, which does not hold it in turn. -/
theorem lists_form_forest_selfAppended :
    Passed selfAppendingEnv selfAppended ∧ Held selfAppendingEnv selfAppended (.list 1) ∧
      selfAppended.heap.Edge 1 1 2 ∧ ¬ selfAppended.heap.Reaches (.list 2) 1 ∧
      selfAppended.heap.Walks (.list 1) := by
  have hreached : Reached selfAppendingEnv 8 (.call "main" []) { Machine.initial with line := 1 } :=
    reached_entry (f := selfAppending) rfl rfl rfl 8
  have hpassed : Passed selfAppendingEnv selfAppended := .ended hreached
  have hcall : (meaning selfAppendingEnv 8).call "main" [] { Machine.initial with line := 1 } =
      .ok (.list 1) selfAppended := by with_unfolding_all rfl
  have hheld : Held selfAppendingEnv selfAppended (.list 1) := .result hreached hcall
  have hedge : selfAppended.heap.Edge 1 1 2 := by
    unfold Heap.Edge
    with_unfolding_all rfl
  obtain ⟨hacyclic, -, hwalks⟩ := lists_form_forest hpassed
  exact ⟨hpassed, hheld, hedge, hacyclic 1 (.list 2) hedge.mem, (hwalks (.list 1) hheld).2⟩

end Exec

end CallTrace
