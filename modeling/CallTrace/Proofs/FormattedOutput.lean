import CallTrace.Proofs.Evaluation.Orderly
import CallTrace.Proofs.Heap.Walk
import CallTrace.Proofs.Storage

/-! # Formatted output

A text can be written with an output statement or with `printf`. The two agree when the format has the literal
texts with every percent sign doubled, and a directive `%s` for every value.

* `Printf.Piece`: a part of a text, literal or the text of a value.
* `Printf.formatOf`, `Printf.arguments`: the format and the arguments that write the pieces, `Printf.written` the
  text that they come to (`Printf.format_formatOf`). Too few arguments are an error (`Printf.format_too_few`).
* `Exec.Unaltered`, `Exec.Harmless`: expressions evaluated in order without an error and without a side effect.
* `Exec.printf_eq_output`: the two statements, from every state in which lists are a forest and the values of variables
  exist. The states of a run are such (`Exec.ordered_of_passed`).
-/

namespace CallTrace
set_option autoImplicit false

open Instrumented (Expr Stmt Action)

namespace Printf

/-! ## Pieces of a text -/

/-- A part of a text that is written: a literal one, or the text of a value. -/
inductive Piece where
  | text (s : String)
  | value (e : Expr)

/-- The part of an output statement. -/
def Piece.part : Piece → Expr
  | .text s => .str s
  | .value e => e

/-- A character of a literal text as a format has it. -/
def doubled (c : Char) : List Char := if c = '%' then ['%', '%'] else [c]

def Piece.format : Piece → List Char
  | .text s => s.toList.flatMap doubled
  | .value _ => ['%', 's']

def Piece.argument? : Piece → Option Expr
  | .text _ => none
  | .value e => some e

/-- The format that writes some pieces. -/
def formatOf (pieces : List Piece) : String := String.ofList (pieces.flatMap Piece.format)

/-- The arguments for the directives of the format. -/
def arguments (pieces : List Piece) : List Expr := pieces.filterMap Piece.argument?

/-- The text of some pieces; their expressions have the values `vs`. -/
def written (h : Heap) : List Piece → List Value → String
  | .text s :: pieces, vs => s ++ written h pieces vs
  | .value _ :: pieces, v :: vs => h.text v ++ written h pieces vs
  | _, _ => ""

/-! ## Reading the format -/

section

variable {h : Heap} {vs : List Value} {pieces : List Piece}

theorem formatFrom_doubled (c : Char) (cs : List Char) (vs : List Value) (done : String) :
    formatFrom h .plain (doubled c ++ cs) vs done = formatFrom h .plain cs vs (done.push c) := by
  by_cases hc : c = '%'
  · subst hc
    simp [doubled, formatFrom, directive, String.push_eq_append]
  · simp [doubled, formatFrom, hc]

theorem formatFrom_text (s : List Char) (cs : List Char) (vs : List Value) (done : String) :
    formatFrom h .plain (s.flatMap doubled ++ cs) vs done = formatFrom h .plain cs vs (done ++ String.ofList s) := by
  induction s generalizing done with
  | nil => simp
  | cons c s ih =>
    rw [List.flatMap_cons, List.append_assoc, formatFrom_doubled, ih, String.push_eq_append, String.append_assoc,
      String.ofList_cons]

/-- Only the texts of the values matter. -/
theorem written_congr {h' : Heap} (hsame : ∀ v ∈ vs, h'.text v = h.text v) :
    written h' pieces vs = written h pieces vs := by
  induction pieces generalizing vs with
  | nil => rfl
  | cons piece pieces ih =>
    cases piece with
    | text s => rw [written, written, ih hsame]
    | value e =>
      cases vs with
      | nil => rfl
      | cons v vs =>
        rw [List.forall_mem_cons] at hsame
        rw [written, written, hsame.1, ih hsame.2]

/-- A directive for any value writes its text. -/
theorem formatFrom_value (cs : List Char) (v : Value) (vs : List Value) (done : String) :
    formatFrom h .plain (['%', 's'] ++ cs) (v :: vs) done = formatFrom h .plain cs vs (done ++ h.text v) := by
  simp [formatFrom, directive, directiveText, Except.map]

theorem formatFrom_pieces (hlength : vs.length = (arguments pieces).length) (extra : List Value) (done : String) :
    formatFrom h .plain (pieces.flatMap Piece.format) (vs ++ extra) done = .ok (done ++ written h pieces vs) := by
  induction pieces generalizing vs done with
  | nil => simp [formatFrom, written]
  | cons piece pieces ih =>
    rw [List.flatMap_cons]
    cases piece with
    | text s =>
      have hrest := ih hlength (done ++ s)
      rw [Piece.format, formatFrom_text, String.ofList_toList, hrest, written, String.append_assoc]
    | value e =>
      cases vs with
      | nil => simp [arguments, Piece.argument?] at hlength
      | cons v vs =>
        have hlength' : vs.length = (arguments pieces).length := by
          simpa [arguments, Piece.argument?] using hlength
        have hrest := ih hlength' (done ++ h.text v)
        change formatFrom h .plain (['%', 's'] ++ pieces.flatMap Piece.format) (v :: (vs ++ extra)) done = _
        rw [formatFrom_value, hrest, written, String.append_assoc]

/-- The format writes the pieces; arguments that are left do not matter. -/
theorem format_formatOf (hlength : vs.length = (arguments pieces).length) (extra : List Value) :
    format h (formatOf pieces) (vs ++ extra) = .ok (written h pieces vs) := by
  rw [format, formatOf, String.toList_ofList, formatFrom_pieces hlength, String.empty_append]

theorem formatFrom_too_few (hlength : vs.length < (arguments pieces).length) (done : String) :
    formatFrom h .plain (pieces.flatMap Piece.format) vs done =
      .error (.invalidFormat "Not enough arguments for format string") := by
  induction pieces generalizing vs done with
  | nil => simp [arguments] at hlength
  | cons piece pieces ih =>
    rw [List.flatMap_cons]
    cases piece with
    | text s =>
      rw [Piece.format, formatFrom_text]
      exact ih hlength _
    | value e =>
      rw [Piece.format]
      cases vs with
      | nil => simp [formatFrom, directive]
      | cons v vs =>
        have hlength' : vs.length < (arguments pieces).length := by
          simpa [arguments, Piece.argument?] using hlength
        rw [formatFrom_value]
        exact ih hlength' _

theorem format_too_few (hlength : vs.length < (arguments pieces).length) :
    format h (formatOf pieces) vs = .error (.invalidFormat "Not enough arguments for format string") := by
  rw [format, formatOf, String.toList_ofList, formatFrom_too_few hlength]

/-- One line feed at the end is dropped, and nothing else. -/
theorem dropLineFeed_cases (s : String) :
    s = dropLineFeed s ++ "\n" ∨ s = dropLineFeed s ∧ ∀ t, s ≠ t ++ "\n" := by
  unfold dropLineFeed
  split
  · next cs hcs =>
    left
    have hs : s.toList = cs.reverse ++ ['\n'] := by
      rw [← List.reverse_reverse s.toList, hcs, List.reverse_cons]
    rw [← String.ofList_toList (s := s), hs, String.ofList_append]
  · next hcs =>
    right
    refine ⟨rfl, ?_⟩
    rintro t rfl
    exact hcs t.toList.reverse (by simp)

end

end Printf

/-! ## Evaluation without side effects -/

namespace Exec

/-- Nothing that there was has changed. Lists may have been made. -/
structure Unaltered (m n : Machine) : Prop where
  stack : n.stack = m.stack
  recorder : n.recorder = m.recorder
  line : n.line = m.line
  entered : n.entered = m.entered
  size : m.heap.cells.size ≤ n.heap.cells.size
  items : ∀ c < m.heap.cells.size, n.heap.items c = m.heap.items c

/-- Expressions are evaluated in order, each without an error and without a side effect. -/
inductive Harmless (p : Meaning) : Machine → List Expr → List Value → Machine → Prop where
  | nil (m : Machine) : Harmless p m [] [] m
  | cons {m n o : Machine} {e : Expr} {es : List Expr} {v : Value} {vs : List Value} (he : p.eval e m = .ok v n)
      (hn : Unaltered m n) (h : Harmless p n es vs o) : Harmless p m (e :: es) (v :: vs) o

theorem ordered_of_begin {env : Env} {line : Nat} {step : Bool} {m n : Machine} (hm : m.Ordered)
    (h : begin env line step m = .ok () n) : n.Ordered := by
  obtain ⟨hheap, hstack⟩ := (Still.begin env line step).ok m () n h
  exact ((Growing.refl hm).of_eq hheap hstack).ordered

namespace Unaltered

variable {m n o : Machine} {v : Value}

theorem refl (m : Machine) : Unaltered m m := ⟨rfl, rfl, rfl, rfl, Nat.le_refl _, fun _ _ => rfl⟩

theorem trans (h : Unaltered m n) (h' : Unaltered n o) : Unaltered m o where
  stack := h'.stack.trans h.stack
  recorder := h'.recorder.trans h.recorder
  line := h'.line.trans h.line
  entered := h'.entered.trans h.entered
  size := Nat.le_trans h.size h'.size
  items c hc := (h'.items c (Nat.lt_of_lt_of_le hc h.size)).trans (h.items c hc)

/-- What a value that exists is written as stays the same. -/
theorem text (h : Unaltered m n) (hm : m.Ordered) (hv : m.heap.Has v) : n.heap.text v = m.heap.text v :=
  Heap.text_congr (hm.forest.grounded_of_has hv) h.size h.items

end Unaltered

namespace Harmless

variable {p : Meaning} {m n o : Machine} {es es' : List Expr} {vs vs' : List Value}

theorem unaltered (h : Harmless p m es vs n) : Unaltered m n := by
  induction h with
  | nil m => exact .refl m
  | cons _ hn _ ih => exact hn.trans ih

theorem length (h : Harmless p m es vs n) : vs.length = es.length := by
  induction h with
  | nil m => rfl
  | cons _ _ _ ih => simp [ih]

theorem append (h : Harmless p m es vs n) (h' : Harmless p n es' vs' o) : Harmless p m (es ++ es') (vs ++ vs') o := by
  induction h with
  | nil m => exact h'
  | cons he hn _ ih => exact .cons he hn (ih h')

/-- The values exist. -/
theorem has {env : Env} {fuel : Nat} (h : Harmless (meaning env fuel) m es vs n) (hm : m.Ordered) :
    n.Ordered ∧ ∀ v ∈ vs, n.heap.Has v := by
  induction h with
  | nil m => simp [hm]
  | @cons m n o e es v vs he hn h ih =>
    obtain ⟨hgrowing, hv⟩ := ((orderly_meaning (fun _ => False) env fuel).eval e hm).of_ok he
    obtain ⟨ho, hvs⟩ := ih hgrowing.ordered
    refine ⟨ho, ?_⟩
    rw [List.forall_mem_cons]
    exact ⟨hv.of_size h.unaltered.size, hvs⟩

theorem mapM (h : Harmless p m es vs n) : es.mapM p.eval m = .ok vs n := by
  induction h with
  | nil m => rfl
  | cons he _ _ ih => simp only [List.mapM_cons, bind_of_ok he, bind_of_ok ih, pure, EStateM.pure]

end Harmless

/-! ## The two statements -/

open Printf (Piece arguments written formatOf)

section

variable {env : Env} {fuel line : Nat} {step : Bool} {m n o : Machine} {pieces : List Piece} {vs ws : List Value}
  {args extras : List Expr}

/-- The text of a part of an output statement. -/
def partText (p : Meaning) (e : Expr) : Exec String := do
  let v ← p.eval e
  return (← get).heap.text v

/-- The first part, and then the others. -/
theorem parts_cons {p : Meaning} {e : Expr} {es : List Expr} {s : String} {texts : List String}
    (he : partText p e m = .ok s n) (hes : es.mapM (partText p) n = .ok texts o) :
    (e :: es).mapM (partText p) m = .ok (s :: texts) o := by
  simp only [List.mapM_cons, bind_of_ok he, bind_of_ok hes]
  rfl

/-- The parts of an output statement come to the text of the pieces. A list that one part is has the same text when
all parts have been evaluated. -/
theorem parts_written (hm : m.Ordered) (h : Harmless (meaning env (fuel + 1)) m (arguments pieces) vs n) :
    ∃ texts, (pieces.map Piece.part).mapM (partText (meaning env (fuel + 1))) m = .ok texts n ∧
      String.join texts = written n.heap pieces vs := by
  induction pieces generalizing m vs with
  | nil =>
    cases h
    exact ⟨[], rfl, rfl⟩
  | cons piece pieces ih =>
    cases piece with
    | text s =>
      obtain ⟨texts, htexts, hjoin⟩ := ih hm h
      have hvalue : (meaning env (fuel + 1)).eval (.str s) m = .ok (.str s) m := rfl
      have htext : m.heap.text (.str s) = s := Heap.textWith_of_scalar rfl _
      have hfirst : partText (meaning env (fuel + 1)) (.str s) m = .ok s m := by
        rw [partText, bind_of_ok hvalue, get_bind, htext]
        rfl
      refine ⟨s :: texts, parts_cons hfirst htexts, ?_⟩
      rw [String.join_cons, hjoin, written]
    | value e =>
      cases h with
      | @cons _ m₁ _ _ _ v vs he hn h =>
        obtain ⟨hgrowing, hv⟩ := ((orderly_meaning (fun _ => False) env (fuel + 1)).eval e hm).of_ok he
        obtain ⟨texts, htexts, hjoin⟩ := ih hgrowing.ordered h
        have hfirst : partText (meaning env (fuel + 1)) e m = .ok (m₁.heap.text v) m₁ := bind_of_ok he
        refine ⟨m₁.heap.text v :: texts, parts_cons hfirst htexts, ?_⟩
        rw [String.join_cons, hjoin, written, h.unaltered.text hgrowing.ordered hv]

/-- A statement that has begun does its action. -/
theorem run_act {action : Action} (hbegin : begin env line step m = .ok () n) :
    (meaning env (fuel + 1)).run (.act line step action) m =
      (perform (meaning env fuel) action >>= fun _ => pure Flow.normal) n := bind_of_ok hbegin

theorem run_output (hm : m.Ordered) (hbegin : begin env line step m = .ok () n)
    (h : Harmless (meaning env (fuel + 1)) n (arguments pieces) vs o) :
    (meaning env (fuel + 2)).run (.act line step (.log (pieces.map Piece.part))) m =
      .ok .normal { o with recorder := o.recorder.log (written o.heap pieces vs) (some o.line) } := by
  obtain ⟨texts, htexts, hjoin⟩ := parts_written (ordered_of_begin hm hbegin) h
  have hperform : perform (meaning env (fuel + 1)) (.log (pieces.map Piece.part)) n =
      recordLog (String.join texts) o := bind_of_ok htexts
  rw [run_act hbegin, bind_of_ok hperform, hjoin]
  rfl

theorem run_printf (hbegin : begin env line step m = .ok () n) (format : String)
    (h : Harmless (meaning env (fuel + 1)) n args vs o) :
    (meaning env (fuel + 2)).run (.act line step (.printf (.str format) args)) m =
      (ofExcept (Printf.format o.heap format vs) >>= fun text => do
        recordLog (Printf.dropLineFeed text)
        return .normal) o := by
  have hformat : (meaning env (fuel + 1)).eval (.str format) n = .ok (.str format) n := rfl
  rw [run_act hbegin]
  simp only [perform, bind_assoc, bind_of_ok hformat, bind_of_ok h.mapM, get_bind]

end

/-- An output statement and the `printf` with the format of its pieces write the same text, but for a line feed at the
end. Arguments that are left over do not matter; with too few, nothing is written. Every state that a run passes
through is ordered. -/
theorem printf_eq_output (env : Env) (fuel line : Nat) (step : Bool) (pieces : List Piece) {m n : Machine}
    (hm : m.Ordered) (hbegin : begin env line step m = .ok () n) :
    (∀ vs o extras ws q, Harmless (meaning env (fuel + 1)) n (arguments pieces) vs o →
      Harmless (meaning env (fuel + 1)) o extras ws q → ∃ text printed : String,
        (text = printed ++ "\n" ∨ text = printed ∧ ∀ t, text ≠ t ++ "\n") ∧
        (meaning env (fuel + 2)).run (.act line step (.log (pieces.map Piece.part))) m =
          .ok .normal { o with recorder := n.recorder.log text (some n.line) } ∧
        (meaning env (fuel + 2)).run (.act line step (.printf (.str (formatOf pieces)) (arguments pieces ++ extras))) m =
          .ok .normal { q with recorder := n.recorder.log printed (some n.line) }) ∧
    ∀ args vs o, Harmless (meaning env (fuel + 1)) n args vs o → args.length < (arguments pieces).length →
      (meaning env (fuel + 2)).run (.act line step (.printf (.str (formatOf pieces)) args)) m =
        .error (.failed ⟨.invalidFormat "Not enough arguments for format string", n.line⟩) o ∧
      o.recorder = n.recorder := by
  constructor
  · intro vs o extras ws q h hextras
    have hlength : vs.length = (arguments pieces).length := h.length
    have hall := h.append hextras
    obtain ⟨ho, hhas⟩ := h.has (ordered_of_begin hm hbegin)
    have htexts : written q.heap pieces vs = written o.heap pieces vs :=
      Printf.written_congr fun v hv => hextras.unaltered.text ho (hhas v hv)
    refine ⟨written o.heap pieces vs, Printf.dropLineFeed (written o.heap pieces vs), Printf.dropLineFeed_cases _, ?_, ?_⟩
    · rw [run_output hm hbegin h, h.unaltered.recorder, h.unaltered.line]
    · rw [run_printf hbegin _ hall, Printf.format_formatOf hlength, htexts, ← hall.unaltered.recorder,
        ← hall.unaltered.line]
      rfl
  · intro args vs o h hfew
    have hlength : vs.length < (arguments pieces).length := by rwa [h.length]
    rw [run_printf hbegin _ h, Printf.format_too_few hlength, ← h.unaltered.line]
    exact ⟨rfl, h.unaltered.recorder⟩

/-- `cout << "100% of " << {1, 2} << "\n"`, in pieces. -/
def sharePieces : List Piece := [.text "100% of ", .value (.list [.int 1, .int 2]), .text "\n"]

/-- With a surplus argument the format `100%% of %s` still writes what the output statement writes, and without any it
fails. -/
theorem printf_sharePieces : formatOf sharePieces = "100%% of %s\n" ∧ (∃ n o : Machine, ∃ text printed : String,
      (text = printed ++ "\n" ∨ text = printed ∧ ∀ t, text ≠ t ++ "\n") ∧
      (meaning emptyEnv 3).run (.act 1 true (.log (sharePieces.map Piece.part))) Machine.initial =
        .ok .normal { o with recorder := n.recorder.log text (some n.line) } ∧
      (meaning emptyEnv 3).run (.act 1 true (.printf (.str (formatOf sharePieces)) (arguments sharePieces ++ [.int 4])))
        Machine.initial = .ok .normal { o with recorder := n.recorder.log printed (some n.line) }) ∧
    ∃ o : Machine, (meaning emptyEnv 3).run (.act 1 true (.printf (.str (formatOf sharePieces)) [])) Machine.initial =
      .error (.failed ⟨.invalidFormat "Not enough arguments for format string", 1⟩) o := by
  have hbegin : begin emptyEnv 1 true Machine.initial = .ok () Machine.initial := rfl
  let made : Machine := { Machine.initial with heap := ⟨#[#[.int 1, .int 2]]⟩ }
  have hlist : Harmless (meaning emptyEnv 2) Machine.initial (arguments sharePieces) [.list 0] made :=
    .cons rfl ⟨rfl, rfl, rfl, rfl, Nat.zero_le _, fun c hc => absurd hc (Nat.not_lt_zero c)⟩ (.nil made)
  have hsurplus : Harmless (meaning emptyEnv 2) made [.int 4] [.int 4] made := .cons rfl (.refl made) (.nil made)
  obtain ⟨hagree, hfew⟩ := printf_eq_output emptyEnv 1 1 true sharePieces Machine.ordered_initial hbegin
  refine ⟨by decide, ⟨_, _, hagree _ _ _ _ _ hlist hsurplus⟩, _, (hfew [] [] _ (.nil _) ?_).1⟩
  decide

end Exec

end CallTrace
