import CallTrace.Proofs.Evaluation.Located
import CallTrace.Proofs.Probes

/-! # Lines of loop conditions

A statement makes its line the current one, and nothing but a statement or a `for` loop changes it. So the condition
of a `while` loop is evaluated at the line of the loop in the first round, and in every later one at the line where
the body has just ended. A `for` loop goes back to its header before its condition.

* `Stmt.ends`: how and on which lines a statement may end. `Stmt.condLines`: the lines on which the condition of a
  loop may be evaluated.
* `Exec.line_of_run`: a statement ends on one of its lines.
* `Exec.repeatWhile_ok`: a loop that ends has gone on for some rounds and then stopped.
* `Exec.ReportsAt line c m`: what a computation records of its own call, and the errors that it raises, have a line.
* `Exec.condition_line`: so do the conditions of loops, with the lines of the loop.
-/

namespace CallTrace
set_option autoImplicit false

open Instrumented (Expr Action Stmt)
open Relation (ReflTransGen TransGen)

/-! ## Where statements end -/

namespace Instrumented

/-- How a statement ends that does not return. -/
inductive Way where
  | normal
  | breakLoop
  | continueLoop
  deriving DecidableEq

/-- The line to which a `for` loop goes back. -/
def headerLine (line : Nat) : Option (Nat × Action) → Nat
  | some (initLine, _) => initLine
  | none => line

mutual

/-- How and on which lines a statement may end. -/
def Stmt.ends : Stmt → List (Way × Nat)
  | .act line _ _ => [(.normal, line)]
  | .ifElse line _ _ yes no => endsFrom line yes ++ endsFrom line no
  | .whileLoop line _ _ body => (.normal, line) :: (endsFrom line body).map fun e => (.normal, e.2)
  | .doWhile line _ body _ => (endsFrom line body).map fun e => (.normal, e.2)
  | .forLoop line _ init _ _ body => (.normal, headerLine line init) ::
    ((endsFrom (headerLine line init) body).filter (·.1 = .breakLoop)).map fun e => (.normal, e.2)
  | .block line _ body => endsFrom line body
  | .breakLoop line _ => [(.breakLoop, line)]
  | .continueLoop line _ => [(.continueLoop, line)]
  | .ret _ _ _ => []

/-- How and on which lines some statements may end that are begun at a line. -/
def endsFrom (line : Nat) : List Stmt → List (Way × Nat)
  | [] => [(.normal, line)]
  | s :: rest => s.ends.flatMap fun e => if e.1 = .normal then endsFrom e.2 rest else [e]

end

/-- The lines on which a round of a loop may end that goes on. -/
def goesOnLines (line : Nat) (body : List Stmt) : List Nat :=
  ((endsFrom line body).filter (·.1 ≠ .breakLoop)).map (·.2)

/-- The lines on which the condition of a loop may be evaluated, in the first round and in the later ones. -/
def Stmt.condLines (later : Bool) : Stmt → List Nat
  | .whileLoop line _ _ body => if later then goesOnLines line body else [line]
  | .doWhile line _ body _ => goesOnLines line body
  | .forLoop line _ init _ _ _ => [headerLine line init]
  | _ => []

theorem mem_goesOnLines {line n : Nat} {body : List Stmt} :
    n ∈ goesOnLines line body ↔ ∃ way, way ≠ .breakLoop ∧ (way, n) ∈ endsFrom line body := by
  simp only [goesOnLines, List.mem_map, List.mem_filter, decide_eq_true_eq]
  constructor
  · rintro ⟨⟨way, _⟩, ⟨hmem, hway⟩, rfl⟩
    exact ⟨way, hway, hmem⟩
  · rintro ⟨way, hway, hmem⟩
    exact ⟨(way, n), ⟨hmem, hway⟩, rfl⟩

/-- Some statements begun where they have ended before end where they may end anyway. -/
theorem mem_endsFrom_of_entry {line entry : Nat} {body : List Stmt} {e : Way × Nat}
    (hentry : entry = line ∨ ∃ way, (way, entry) ∈ endsFrom line body) (he : e ∈ endsFrom entry body) :
    e ∈ endsFrom line body := by
  cases body with
  | nil =>
    rcases hentry with rfl | ⟨way, hway⟩
    · exact he
    · cases List.mem_singleton.mp hway
      exact he
  | cons s rest => exact he

end Instrumented

open Instrumented (Way endsFrom headerLine goesOnLines)

/-- How a statement has ended, unless it has returned. -/
def Flow.way? : Flow → Option Way
  | .normal => some .normal
  | .breakLoop => some .breakLoop
  | .continueLoop => some .continueLoop
  | .ret _ => none

/-- A round after which a loop goes on has ended in a way that is no `break`. -/
theorem Flow.way_of_loopExit_none {flow : Flow} (h : flow.loopExit? = none) :
    ∃ way, flow.way? = some way ∧ way ≠ .breakLoop := by
  cases flow with
  | normal => exact ⟨.normal, rfl, nofun⟩
  | continueLoop => exact ⟨.continueLoop, rfl, nofun⟩
  | breakLoop | ret => cases h

/-- A loop that has ended in some way has ended normally, because of a `break`. -/
theorem Flow.way_of_loopExit {flow last : Flow} {way : Way} (h : flow.loopExit? = some last)
    (hway : last.way? = some way) : way = .normal ∧ flow.way? = some .breakLoop := by
  cases flow <;> cases h <;> cases hway
  exact ⟨rfl, rfl⟩

namespace Exec

variable {env : Env} {fuel k : Nat} {m n : Machine} {s : Stmt} {flow : Flow} {way : Way}

/-- A loop that ends has gone on for some rounds, and then either its condition was false or its body has left it. -/
theorem repeatWhile_ok {cond : Exec Bool} {body : Exec Flow} {next : Exec Unit} {rounds : Nat}
    (h : repeatWhile cond body next rounds m = .ok flow n) :
    ∃ o, ReflTransGen (Loop.GoesOn ⟨cond, body, next⟩) m o ∧ (cond o = .ok false n ∧ flow = .normal ∨
      ∃ q left, cond o = .ok true q ∧ body q = .ok left n ∧ left.loopExit? = some flow) := by
  induction rounds generalizing m with
  | zero => cases h
  | succ rounds ih =>
    obtain ⟨go, o, hcond, h⟩ := ok_of_bind h
    cases go with
    | false =>
      cases h
      exact ⟨m, .refl, .inl ⟨hcond, rfl⟩⟩
    | true =>
      obtain ⟨left, q, hbody, h⟩ := ok_of_bind h
      cases hexit : left.loopExit? with
      | some last =>
        rw [hexit] at h
        cases h
        exact ⟨m, .refl, .inr ⟨o, left, hcond, hbody, hexit⟩⟩
      | none =>
        rw [hexit] at h
        obtain ⟨_, r, hnext, h⟩ := ok_of_bind h
        obtain ⟨t, hrounds, hend⟩ := ih h
        exact ⟨t, .head ⟨o, left, q, hcond, hbody, hexit, hnext⟩ hrounds, hend⟩

theorem inScope_ok {run : Exec Flow} (h : inScope run m = .ok flow n) :
    ∃ o, run { m with stack := m.stack.pushScope } = .ok flow o ∧ n = { o with stack := o.stack.popScope } := by
  obtain ⟨_, a, hpush, h⟩ := ok_of_bind h
  cases hpush
  obtain ⟨_, o, hrun, h⟩ := ok_of_bind h
  cases h
  exact ⟨o, hrun, rfl⟩

/-! ## Lines that stay -/

theorem begin_sound {line : Nat} {step : Bool} (hm : m.recorder.Sound) (h : begin env line step m = .ok () n) :
    n.recorder.Sound := (balanced_begin line step hm h).1

theorem truth_located (cond : Expr) (hm : m.recorder.Sound) {go : Bool}
    (h : truth (meaning env fuel) cond m = .ok go n) : m.Located 0 n :=
  ((locates_meaning env fuel).truth cond).ok ⟨hm, Nat.zero_le _⟩ h

theorem forInit_line {line : Nat} {init : Option (Nat × Action)} (hm : m.recorder.Sound) (hline : m.line = line)
    (h : forInit (meaning env fuel) env init m = .ok () n) : n.line = headerLine line init := by
  cases init with
  | none =>
    cases h
    exact hline
  | some first =>
    obtain ⟨_, o, hbegin, hperform⟩ := ok_of_bind h
    have ho : o.Opened 0 := ⟨begin_sound hm hbegin, Nat.zero_le _⟩
    exact (((locates_meaning env fuel).perform first.2).ok ho hperform).line.trans (begin_line hbegin)

theorem forCond_line {header : Nat} {cond : Option Expr} {go : Bool} (hm : m.recorder.Sound)
    (h : forCond (meaning env fuel) header cond m = .ok go n) : n.recorder.Sound ∧ n.line = header := by
  cases cond with
  | none =>
    cases h
    exact ⟨hm, rfl⟩
  | some e =>
    have hn := truth_located (m := { m with line := header }) e hm h
    exact ⟨hn.sound, hn.line⟩

theorem sound_of_rounds {l : Loop} {body : List Stmt} (hcond : Balanced l.cond) (hnext : Balanced l.next)
    (hbody : l.body = block (meaning env fuel) body) (hm : m.recorder.Sound) (h : ReflTransGen l.GoesOn m n) :
    n.recorder.Sound := by
  induction h with
  | refl => exact hm
  | tail _ hround ih => exact (hround.ran hcond hnext hbody ih).1

/-! ## Where statements have ended -/

/-- Statements end on lines where they may end. -/
def Meaning.EndsOnLines (p : Meaning) : Prop :=
  ∀ {s : Stmt} {m n : Machine} {flow : Flow} {way : Way}, m.recorder.Sound → p.run s m = .ok flow n →
    flow.way? = some way → (way, n.line) ∈ s.ends

namespace Meaning.EndsOnLines

variable (h : (meaning env fuel).EndsOnLines)
include h

theorem sequence {body : List Stmt} (hm : m.recorder.Sound) (hc : sequence (meaning env fuel).run body m = .ok flow n)
    (hway : flow.way? = some way) : (way, n.line) ∈ endsFrom m.line body := by
  induction body generalizing m with
  | nil =>
    cases hc
    cases hway
    exact List.mem_singleton_self _
  | cons s rest ih =>
    obtain ⟨first, o, hs, hc⟩ := ok_of_bind hc
    rw [endsFrom, List.mem_flatMap]
    cases first with
    | normal =>
      have ho := ((bracketed env fuel).run s.refsOnlyIf_true hm).of_ok hs
      exact ⟨_, h hm hs rfl, by simpa using ih ho.1 hc⟩
    | breakLoop | continueLoop =>
      cases hc
      cases hway
      exact ⟨_, h hm hs rfl, by simp⟩
    | ret v =>
      cases hc
      cases hway

theorem block {body : List Stmt} (hm : m.recorder.Sound) (hc : block (meaning env fuel) body m = .ok flow n)
    (hway : flow.way? = some way) : (way, n.line) ∈ endsFrom m.line body := by
  obtain ⟨o, hsequence, rfl⟩ := inScope_ok hc
  exact h.sequence (m := { m with stack := m.stack.pushScope }) (n := o) hm hsequence hway

/-- A round of a `while` loop that goes on ends where its body may end without a `break`. -/
theorem goesOn {cond : Expr} {body : List Stmt} {line : Nat} (hm : m.recorder.Sound)
    (hline : m.line = line ∨ ∃ way, (way, m.line) ∈ endsFrom line body)
    (hround : Loop.GoesOn ⟨truth (meaning env fuel) cond, Exec.block (meaning env fuel) body, checkEvents env⟩ m n) :
    n.line ∈ goesOnLines line body := by
  obtain ⟨o, flow, q, hcond, hbody, hexit, hnext⟩ := hround
  obtain ⟨rfl, -⟩ := checkEvents_ok hnext
  have ho := truth_located cond hm hcond
  obtain ⟨way, hway, hne⟩ := Flow.way_of_loopExit_none hexit
  refine Instrumented.mem_goesOnLines.mpr ⟨way, hne, ?_⟩
  exact Instrumented.mem_endsFrom_of_entry (ho.line ▸ hline) (h.block ho.sound hbody hway)

/-- Every round of a `while` loop begins at the line of the loop, or where its body may end. -/
theorem rounds {cond : Expr} {body : List Stmt} {line : Nat} (hm : m.recorder.Sound)
    (hline : m.line = line ∨ ∃ way, (way, m.line) ∈ endsFrom line body)
    (hrounds : ReflTransGen
      (Loop.GoesOn ⟨truth (meaning env fuel) cond, Exec.block (meaning env fuel) body, checkEvents env⟩) m n) :
    n.line = line ∨ ∃ way, (way, n.line) ∈ endsFrom line body := by
  induction hrounds with
  | refl => exact hline
  | tail hrounds hround ih =>
    have ho := sound_of_rounds (balanced_truth cond) balanced_checkEvents rfl hm hrounds
    obtain ⟨way, -, hmem⟩ := Instrumented.mem_goesOnLines.mp (h.goesOn ho ih hround)
    exact .inr ⟨way, hmem⟩

/-- A `while` loop ends where its condition is false, or where its body may end. -/
theorem whileLoop {cond : Expr} {body : List Stmt} {line rounds : Nat} (hm : m.recorder.Sound)
    (hline : m.line = line ∨ ∃ way, (way, m.line) ∈ endsFrom line body)
    (hc : repeatWhile (truth (meaning env fuel) cond) (Exec.block (meaning env fuel) body) (checkEvents env) rounds m =
      .ok flow n) (hway : flow.way? = some way) :
    way = .normal ∧ (n.line = line ∨ ∃ way, (way, n.line) ∈ endsFrom line body) := by
  obtain ⟨o, hrounds, hend⟩ := repeatWhile_ok hc
  have ho := sound_of_rounds (balanced_truth cond) balanced_checkEvents rfl hm hrounds
  have hlines := h.rounds hm hline hrounds
  rcases hend with ⟨hfalse, rfl⟩ | ⟨q, left, htrue, hbody, hexit⟩
  · cases hway
    exact ⟨rfl, (truth_located cond ho hfalse).line ▸ hlines⟩
  · obtain ⟨hnormal, hbreak⟩ := Flow.way_of_loopExit hexit hway
    have hq := truth_located cond ho htrue
    exact ⟨hnormal, .inr ⟨_, Instrumented.mem_endsFrom_of_entry (hq.line ▸ hlines) (h.block hq.sound hbody hbreak)⟩⟩

/-- A `for` loop ends at its header, or where its body may end with a `break`. -/
theorem forLoop {cond update : Option Expr} {body : List Stmt} {header rounds : Nat} (hm : m.recorder.Sound)
    (hc : repeatWhile (forCond (meaning env fuel) header cond) (Exec.block (meaning env fuel) body)
      (forNext (meaning env fuel) env header update) rounds m = .ok flow n) (hway : flow.way? = some way) :
    way = .normal ∧ (n.line = header ∨ (Way.breakLoop, n.line) ∈ endsFrom header body) := by
  obtain ⟨o, hrounds, hend⟩ := repeatWhile_ok hc
  have ho := sound_of_rounds (balanced_forCond header cond) (balanced_forNext header update) rfl hm hrounds
  rcases hend with ⟨hfalse, rfl⟩ | ⟨q, left, htrue, hbody, hexit⟩
  · cases hway
    exact ⟨rfl, .inl (forCond_line ho hfalse).2⟩
  · obtain ⟨hnormal, hbreak⟩ := Flow.way_of_loopExit hexit hway
    obtain ⟨hq, rfl⟩ := forCond_line ho htrue
    exact ⟨hnormal, .inr (h.block hq hbody hbreak)⟩

omit h in
theorem returning {p : Meaning} {value : Option Expr} (hc : returning p env value m = .ok flow n) :
    flow.way? = none := by
  have hreturn {v : Value} {o : Machine} (hc : (get >>= fun m : Machine => recordReturn v m.line >>= fun _ =>
      checkEvents env >>= fun _ => pure (Flow.ret v)) o = .ok flow n) : flow.way? = none := by
    obtain ⟨_, _, -, hc⟩ := ok_of_bind hc
    obtain ⟨_, _, -, hc⟩ := ok_of_bind hc
    obtain ⟨_, _, -, hc⟩ := ok_of_bind hc
    cases hc
    rfl
  cases value with
  | none => exact hreturn hc
  | some e =>
    obtain ⟨v, o, -, hc⟩ := ok_of_bind hc
    exact hreturn hc

/-- A `do` loop ends where its body may end. -/
theorem doWhile {cond : Expr} {body : List Stmt} {line rounds : Nat} {step : Bool} (hm : m.recorder.Sound)
    (hline : m.line = line) (hc : runBegun (meaning env fuel) env rounds (.doWhile line step body cond) m = .ok flow n)
    (hway : flow.way? = some way) : way = .normal ∧ ∃ way, (way, n.line) ∈ endsFrom line body := by
  obtain ⟨first, o, hfirst, hrest⟩ := ok_of_bind hc
  have hends {way : Way} (hway : first.way? = some way) : (way, o.line) ∈ endsFrom line body :=
    hline ▸ h.block hm hfirst hway
  cases hexit : first.loopExit? with
  | some last =>
    rw [hexit] at hrest
    cases hrest
    obtain ⟨hnormal, hbreak⟩ := Flow.way_of_loopExit hexit hway
    exact ⟨hnormal, _, hends hbreak⟩
  | none =>
    rw [hexit] at hrest
    obtain ⟨_, q, hcheck, hloop⟩ := ok_of_bind hrest
    obtain ⟨rfl, -⟩ := checkEvents_ok hcheck
    obtain ⟨firstWay, hfirstWay, -⟩ := Flow.way_of_loopExit_none hexit
    obtain ⟨hnormal, hend | ⟨last, hend⟩⟩ := h.whileLoop (block_ran hm hfirst).1 (.inl rfl) hloop hway
    · exact ⟨hnormal, firstWay, hend ▸ hends hfirstWay⟩
    · exact ⟨hnormal, last, Instrumented.mem_endsFrom_of_entry (.inr ⟨_, hends hfirstWay⟩) hend⟩

/-- A statement that has begun at its line ends on one of its lines. -/
theorem runBegun {rounds : Nat} (hm : m.recorder.Sound) (hline : m.line = s.line)
    (hc : runBegun (meaning env fuel) env rounds s m = .ok flow n) (hway : flow.way? = some way) :
    (way, n.line) ∈ s.ends := by
  cases s with
  | act line step action =>
    obtain ⟨_, o, hperform, hpure⟩ := ok_of_bind hc
    cases hpure
    cases hway
    have ho := ((locates_meaning env fuel).perform action).ok ⟨hm, Nat.zero_le _⟩ hperform
    exact List.mem_singleton.mpr (congrArg _ (ho.line.trans hline))
  | ifElse line step cond yes no =>
    obtain ⟨go, o, hcond, hbranch⟩ := ok_of_bind hc
    have ho := truth_located cond hm hcond
    have hentry : o.line = line := ho.line.trans hline
    rw [Stmt.ends, List.mem_append, ← hentry]
    cases go with
    | true => exact .inl (h.block ho.sound hbranch hway)
    | false => exact .inr (h.block ho.sound hbranch hway)
  | whileLoop line step cond body =>
    have hentry : m.line = line := hline
    rw [Stmt.ends, List.mem_cons, List.mem_map]
    obtain ⟨rfl, hend | ⟨last, hend⟩⟩ := h.whileLoop hm (.inl hentry) hc hway
    · exact .inl (congrArg _ hend)
    · exact .inr ⟨_, hend, rfl⟩
  | doWhile line step body cond =>
    rw [Stmt.ends, List.mem_map]
    obtain ⟨rfl, last, hend⟩ := h.doWhile hm hline hc hway
    exact ⟨_, hend, rfl⟩
  | forLoop line step init cond update body =>
    obtain ⟨o, hscope, rfl⟩ := inScope_ok hc
    obtain ⟨_, q, hinit, hloop⟩ := ok_of_bind hscope
    have hq := balanced_forInit init (m := { m with stack := m.stack.pushScope }) hm hinit
    have hheader : q.line = headerLine line init :=
      forInit_line (m := { m with stack := m.stack.pushScope }) hm hline hinit
    rw [get_bind, hheader] at hloop
    rw [Stmt.ends, List.mem_cons, List.mem_map]
    obtain ⟨rfl, hend | hend⟩ := h.forLoop hq.1 hloop hway
    · exact .inl (congrArg _ hend)
    · exact .inr ⟨_, List.mem_filter.mpr ⟨hend, by simp⟩, rfl⟩
  | block line step body =>
    have hentry : m.line = line := hline
    rw [Stmt.ends, ← hentry]
    exact h.block hm hc hway
  | breakLoop line step | continueLoop line step =>
    cases hc
    cases hway
    exact List.mem_singleton.mpr (congrArg _ hline)
  | ret line step value => cases (returning hc).symm.trans hway

end Meaning.EndsOnLines

/-- Statements end on lines where they may end, by induction on the fuel. -/
theorem line_of_run (env : Env) (fuel : Nat) : (meaning env fuel).EndsOnLines := by
  induction fuel with
  | zero => exact fun _ hc _ => nomatch hc
  | succ fuel ih =>
    intro s m n flow way hm hc hway
    obtain ⟨_, o, hbegin, hbegun⟩ := ok_of_bind hc
    exact ih.runBegun (begin_sound hm hbegin) (begin_line hbegin) hbegun hway

/-! ## Loop conditions -/

/-- The variables of the latest call that a computation records have a line, and so has its error, unless a call
inside it has failed. -/
structure ReportsAt {α : Type} (line : Nat) (c : Exec α) (m : Machine) : Prop where
  set : ∃ es, (c.after m).recorder.events.toList = m.recorder.events.toList ++ es ∧
    ∀ e ∈ es, ∀ id ∈ m.recorder.active.head?, e.kind = .set → e.frameId = some id → e.line = some line
  error : ∀ e n, c m = .error (.failed e) n → n.stack.depth = m.stack.depth → e.line = line

theorem Locates.reportsAt {α : Type} {c : Exec α} (h : ∀ k, Locates k c) (hm : m.recorder.Sound) :
    ReportsAt m.line c m := by
  have hopened : m.Opened m.recorder.frames.size := ⟨hm, Nat.le_refl _⟩
  have hset {o : Machine} (hadds : m.Adds (m.Marks m.recorder.frames.size) o) :
      ∃ es, o.recorder.events.toList = m.recorder.events.toList ++ es ∧
        ∀ e ∈ es, ∀ id ∈ m.recorder.active.head?, e.kind = .set → e.frameId = some id → e.line = some m.line := by
    obtain ⟨es, he, hes⟩ := hadds
    refine ⟨es, he, fun e hmem id hid hkind hframe => (hes e hmem ⟨hkind, id, ?_, hframe⟩).2⟩
    exact hm.active_lt id (List.mem_of_mem_head? hid)
  constructor
  · unfold Exec.after
    cases hc : c m with
    | ok a n => exact hset ((h _).ok hopened hc).adds
    | error e n => exact hset ((h _).error hopened hc).adds
  · exact fun e n hc hdepth => ((h _).error hopened hc).line e rfl hdepth

theorem reportsAt_truth (cond : Expr) (hm : m.recorder.Sound) :
    ReportsAt m.line (truth (meaning env fuel) cond) m :=
  Locates.reportsAt (fun _ => (locates_meaning env fuel).truth cond) hm

theorem reportsAt_forCond (header : Nat) (cond : Option Expr) (hm : m.recorder.Sound) :
    ReportsAt header (forCond (meaning env fuel) header cond) m := by
  let atHeader : Machine := { m with line := header }
  cases cond with
  | none =>
    have hrest := Locates.reportsAt (m := atHeader) (fun _ => .silent (.pure true)) hm
    exact ⟨hrest.set, hrest.error⟩
  | some e =>
    have hrest : ReportsAt header (truth (meaning env fuel) e) atHeader := reportsAt_truth (m := atHeader) e hm
    exact ⟨hrest.set, hrest.error⟩

/-- Whenever a run evaluates the condition of a loop, the variables that it records and the errors that it raises have
one of the lines of the condition: for a `while` loop its own line in the first round, and in later ones a line where
the round before may end; for a `for` loop always the line of its header. -/
theorem condition_line {env : Env} {k fuel : Nat} {s : Stmt} {m start : Machine} {l : Loop}
    (hreached : Reached env k (.run s) m) (hloop : EntersLoop env (meaning env fuel) s m l start) :
    (∃ line ∈ s.condLines false, ReportsAt line l.cond start) ∧
      ∀ n, TransGen l.GoesOn start n → ∃ line ∈ s.condLines true, ReportsAt line l.cond n := by
  have hm : m.recorder.Sound := bracketing.inv_of_reached (Instrumented.Program.refsOnlyIf_true _)
    bracketing_inv_initial hreached
  have hends : (meaning env fuel).EndsOnLines := line_of_run env fuel
  cases hloop with
  | @whileLoop line step cond body _ _ hbegin =>
    have hstart := begin_sound hm hbegin
    have hline : start.line = line := begin_line hbegin
    refine ⟨⟨line, List.mem_singleton_self _, hline ▸ reportsAt_truth cond hstart⟩, fun n hn => ?_⟩
    obtain ⟨o, hrounds, hround⟩ := TransGen.tail'_iff.mp hn
    have ho := sound_of_rounds (balanced_truth cond) balanced_checkEvents rfl hstart hrounds
    have hsound := sound_of_rounds (balanced_truth cond) balanced_checkEvents rfl hstart hn.to_reflTransGen
    exact ⟨n.line, hends.goesOn ho (hends.rounds hstart (.inl hline) hrounds) hround, reportsAt_truth cond hsound⟩
  | @doWhile line step body cond flow _ b o _ hbegin hfirst hexit hcheck =>
    obtain ⟨rfl, -⟩ := checkEvents_ok hcheck
    have hb := begin_sound hm hbegin
    have hstart := (block_ran hb hfirst).1
    have hline : b.line = line := begin_line hbegin
    obtain ⟨way, hway, hne⟩ := Flow.way_of_loopExit_none hexit
    have hentry : (way, start.line) ∈ endsFrom line body := hline ▸ hends.block hb hfirst hway
    refine ⟨⟨_, Instrumented.mem_goesOnLines.mpr ⟨way, hne, hentry⟩, reportsAt_truth cond hstart⟩, fun n hn => ?_⟩
    obtain ⟨o, hrounds, hround⟩ := TransGen.tail'_iff.mp hn
    have ho := sound_of_rounds (balanced_truth cond) balanced_checkEvents rfl hstart hrounds
    have hsound := sound_of_rounds (balanced_truth cond) balanced_checkEvents rfl hstart hn.to_reflTransGen
    have hlines := hends.rounds hstart (.inr ⟨way, hentry⟩) hrounds
    exact ⟨n.line, hends.goesOn ho hlines hround, reportsAt_truth cond hsound⟩
  | @forLoop line step init cond update body _ b _ hbegin hinit =>
    have hb := begin_sound hm hbegin
    have hline : b.line = line := begin_line hbegin
    have hstart := (balanced_forInit init (m := { b with stack := b.stack.pushScope }) hb hinit).1
    have hheader : start.line = headerLine line init :=
      forInit_line (m := { b with stack := b.stack.pushScope }) hb hline hinit
    have hmem (later : Bool) : start.line ∈ (Stmt.forLoop line step init cond update body).condLines later :=
      List.mem_singleton.mpr hheader
    refine ⟨⟨_, hmem false, reportsAt_forCond _ cond hstart⟩, fun n hn => ⟨_, hmem true, reportsAt_forCond _ cond ?_⟩⟩
    exact sound_of_rounds (balanced_forCond _ cond) (balanced_forNext _ update) rfl hstart hn.to_reflTransGen

/-! ### An example -/

/-- The condition `x++ < 3`. -/
def countingCond : Expr := .binary .lt (.update (.var "x") .up false) (.int 3)

/-- A `while` loop whose body, which declares a variable, stands on the next line. -/
def countingLoop : Stmt := .whileLoop 3 true countingCond [.act 4 true (.declare "y" (.int 1) false)]

/-- What the parts of `countingLoop` mean. -/
def countingParts : Loop :=
  let p := meaning (declaringEnv countingLoop) 8
  ⟨truth p countingCond, block p [.act 4 true (.declare "y" (.int 1) false)], checkEvents (declaringEnv countingLoop)⟩

/-- The state in which the first round of `countingLoop` begins. -/
def countingStart : Machine := (begin (declaringEnv countingLoop) 3 true).after (declaringState countingLoop)

/-- The state in which the first round of `countingLoop` has ended. -/
def countingRound : Machine := countingParts.body.after (countingParts.cond.after countingStart)

theorem entersLoop_countingLoop : EntersLoop (declaringEnv countingLoop) (meaning (declaringEnv countingLoop) 8)
    countingLoop (declaringState countingLoop) countingParts countingStart :=
  .whileLoop (by with_unfolding_all rfl)

theorem goesOn_countingLoop : countingParts.GoesOn countingStart countingRound :=
  ⟨countingParts.cond.after countingStart, .normal, countingRound, by with_unfolding_all rfl,
    by with_unfolding_all rfl, rfl, by with_unfolding_all rfl⟩

/-- In the first round of `countingLoop` its condition reports at the line of the loop, and in the second one at the
line of its body. -/
theorem condition_line_countingLoop :
    ReportsAt 3 countingParts.cond countingStart ∧ ReportsAt 4 countingParts.cond countingRound := by
  have hreached : Reached (declaringEnv countingLoop) 8 (.run countingLoop) (declaringState countingLoop) :=
    reached_declaringState countingLoop (by rintro ⟨⟩)
  obtain ⟨⟨line, hline, hfirst⟩, hlater⟩ := condition_line hreached entersLoop_countingLoop
  obtain ⟨line', hline', hsecond⟩ := hlater countingRound (.single goesOn_countingLoop)
  obtain rfl : line = 3 := List.mem_singleton.mp hline
  obtain rfl : line' = 4 := by simpa [countingLoop, Stmt.condLines, Instrumented.mem_goesOnLines, endsFrom, Stmt.ends]
    using hline'
  exact ⟨hfirst, hsecond⟩

/-- The condition of a `while` loop does not always report at the line of the loop. -/
theorem not_condition_line_header :
    ¬ ∀ (env : Env) (k fuel line : Nat) (step : Bool) (cond : Expr) (body : List Stmt) (m start n : Machine) (l : Loop),
      Reached env k (.run (.whileLoop line step cond body)) m →
      EntersLoop env (meaning env fuel) (.whileLoop line step cond body) m l start →
      ReflTransGen l.GoesOn start n → ReportsAt line l.cond n := by
  intro hall
  have hreached : Reached (declaringEnv countingLoop) 8 (.run countingLoop) (declaringState countingLoop) :=
    reached_declaringState countingLoop (by rintro ⟨⟩)
  obtain ⟨⟨es, he, hes⟩, -⟩ := hall _ 8 8 3 true countingCond _ _ _ countingRound _ hreached entersLoop_countingLoop
    (.single goesOn_countingLoop)
  obtain ⟨e, hadded, hkind, hframe, hline⟩ : ∃ e,
      (countingParts.cond.after countingRound).recorder.events.toList =
        countingRound.recorder.events.toList ++ [e] ∧
      e.kind = .set ∧ e.frameId = some 0 ∧ e.line = some 4 := by
    with_unfolding_all exact ⟨_, rfl, rfl, rfl, rfl⟩
  have hactive : countingRound.recorder.active.head? = some 0 := by with_unfolding_all rfl
  obtain rfl : es = [e] := List.append_cancel_left (he.symm.trans hadded)
  have hthree := hes e (List.mem_singleton_self e) 0 hactive hkind hframe
  exact absurd (hline.symm.trans hthree) (by decide)

end Exec

end CallTrace
