import CallTrace.Proofs.Evaluation.Call
import CallTrace.Proofs.Parser.Bodies

/-! # Constructs at top level that cannot be read

A construct at top level that cannot be read is skipped, and a statement that fails stands in its place. The statement
has the text of the whole lines on which the construct stands; if this ends with a brace it is taken for a declaration,
and nothing stands in its place.

* `Surface.Skips`: reading a text comes to a construct that it cannot read, and skips it. An unsupported statement at
  top level stands for such a construct (`Surface.skips_of_parse`).
* `Instrumented.added`: the statements that items add to those at top level; items that follow add theirs behind them,
  so the statement of a construct stands between those of its neighbours (`Instrumented.driver_of_parse`).
* `Instrumented.Program.halt_of_gap`: a run that comes to such a statement ends there.
* `Surface.unsupported_in_driver`: what becomes of a construct that is skipped.
-/

namespace CallTrace
set_option autoImplicit false

namespace Surface

open Surface.Parser (fuelFor item nextItem recover skipConstruct linesText next)

/-! ## Statements that are read -/

namespace Parser

variable {α β : Type} {post : α → Prop}

/-- What a reader reads has a property. -/
def Gives (post : α → Prop) (p : Parser α) : Prop := ∀ ts a us, p ts = .ok (a, us) → post a

namespace Gives

theorem pure {a : α} (h : post a) : Gives post (Pure.pure a) := by
  intro ts b us hb
  cases hb
  exact h

theorem throw (e : ParseError) : Gives post (MonadExcept.throw e : Parser α) := nofun

theorem bind {p : Parser β} {f : β → Parser α} (h : ∀ b, Gives post (f b)) : Gives post (p >>= f) := by
  intro ts a us ha
  have hcases : (p >>= f) ts = (p ts).bind fun r => f r.1 r.2 := rfl
  rw [hcases] at ha
  cases hp : p ts with
  | error e => rw [hp] at ha; cases ha
  | ok r =>
    rw [hp] at ha
    exact h r.1 r.2 a us ha

theorem map {post' : β → Prop} {p : Parser α} {f : α → β} (h : Gives post p) (himp : ∀ a, post a → post' (f a)) :
    Gives post' (f <$> p) := by
  intro ts b us hb
  have hcases : (f <$> p) ts = (p ts).map fun r => (f r.1, r.2) := rfl
  rw [hcases] at hb
  cases hp : p ts with
  | error e => rw [hp] at hb; cases hb
  | ok r =>
    rw [hp] at hb
    cases hb
    exact himp r.1 (h ts r.1 r.2 hp)

end Gives

/-- A statement that stands for nothing else. -/
def Proper (s : Stmt) : Prop := ∀ text reason pos, s ≠ .unsupported text reason pos

theorem gives_exprStatement (n : Nat) (pos : Pos) : Gives Proper (exprStatement n pos) :=
  .bind fun _ => .bind fun _ => .pure nofun

theorem gives_output (n : Nat) (pos : Pos) : Gives Proper (output n pos) := by
  refine .bind fun items => ?_
  dsimp only
  split
  · exact .bind fun _ => .bind fun _ => .pure nofun
  · exact .bind fun _ => .pure nofun

/-- No statement that is read is an unsupported one. -/
theorem gives_statement (lines : List String) (n : Nat) : Gives Proper (statement lines n) := by
  cases n with
  | zero => exact .throw _
  | succ n =>
    unfold statement
    refine .bind fun t => ?_
    dsimp only
    split
    -- an `if` may have a second branch
    case h_2 =>
      refine .bind fun _ => .bind fun _ => .bind fun _ => .bind fun o => ?_
      cases o with
      | some p => exact .bind fun _ => .pure nofun
      | none => exact .pure nofun
    case h_11 => exact .bind fun _ => gives_output n _
    case h_12 =>
      split
      · refine .bind fun ts => ?_
        split
        · exact .bind fun _ => .bind fun _ => .pure nofun
        · exact .bind fun _ => .pure nofun
      · exact gives_exprStatement n _
    case h_13 => exact gives_exprStatement n _
    all_goals
      repeat refine .bind fun _ => ?_
      exact .pure nofun

theorem gives_function (lines : List String) (n : Nat) :
    Gives (fun i => ∀ text reason pos, i ≠ .stmt (.unsupported text reason pos)) (function lines n) := by
  unfold function
  refine .bind fun t => .bind fun name => .bind fun _ => .bind fun params => .bind fun _ => .bind fun o => ?_
  cases o with
  | some p => exact .pure nofun
  | none => exact .bind fun _ => .bind fun body => .bind fun finish => .pure nofun

/-- An unsupported statement at top level stands for what could not be read. -/
theorem recover_of_nextItem {lines : List String} {n : Nat} {ts us : List Token} {text reason : String} {pos : Pos}
    (h : nextItem lines n ts = (.stmt (.unsupported text reason pos), us)) :
    ∃ e, item lines n ts = .error e ∧ recover lines e ts = (.unsupported text reason pos, us) := by
  unfold nextItem at h
  cases hitem : item lines n ts with
  | error e =>
    rw [hitem] at h
    obtain ⟨hstmt, hrest⟩ := Prod.mk.inj h
    exact ⟨e, rfl, Prod.ext (Item.stmt.inj hstmt) hrest⟩
  | ok r =>
    rw [hitem] at h
    obtain rfl : r = _ := h
    have hread : Gives (fun i => ∀ text reason pos, i ≠ .stmt (.unsupported text reason pos)) (item lines n) := by
      refine .bind fun ts => ?_
      split
      · exact gives_function lines n
      · exact (gives_statement lines n).map fun s hs text reason pos h => hs text reason pos (Item.stmt.inj h)
    exact absurd rfl (hread ts _ us hitem text reason pos)

/-! ## What is skipped -/

/-- The line of the last of some tokens, which stand behind `line`. -/
def lastLine : Nat → List Token → Nat
  | line, [] => line
  | _, t :: ts => lastLine t.pos.line ts

theorem skipConstruct_line (braces parens : Nat) (first : Bool) (line : Nat) (ts : List Token) :
    ∃ ws, ts = ws ++ (skipConstruct braces parens first line ts).rest ∧
      (skipConstruct braces parens first line ts).line = lastLine line ws := by
  have hcons {t : Token} {us : List Token} {line : Nat} {s : Skipped}
      (h : ∃ ws, us = ws ++ s.rest ∧ s.line = lastLine t.pos.line ws) :
      ∃ ws, t :: us = ws ++ s.rest ∧ s.line = lastLine line ws := by
    obtain ⟨ws, rfl, hline⟩ := h
    exact ⟨t :: ws, rfl, hline⟩
  fun_induction skipConstruct braces parens first line ts with
  | case1 | case2 | case5 => exact ⟨[], rfl, rfl⟩
  | case4 | case7 | case11 => exact ⟨[_], rfl, rfl⟩
  | case6 _ _ _ _ t _ _ _ p us => exact ⟨[t, ⟨.mark .semicolon, p⟩], rfl, rfl⟩
  | _ => exact hcons (by assumption)

/-- A construct that cannot be read is skipped, one token at least. -/
theorem recover_line (lines : List String) (e : ParseError) {t : Token} (ht : t.kind ≠ .eof) (ts : List Token) :
    ∃ ws us, t :: ts = ws ++ us ∧ ws ≠ [] ∧ recover lines e (t :: ts) =
      (.unsupported (linesText lines t.pos.line (lastLine t.pos.line ws)) e.message t.pos, us) := by
  obtain ⟨ws, hts, hline⟩ := skipConstruct_line 0 0 true t.pos.line (t :: ts)
  refine ⟨ws, _, hts, ?_, ?_⟩
  · rintro rfl
    have hshorter := skipConstruct_shorter ht t.pos.line ts
    rw [← List.nil_append (skipConstruct _ _ _ _ _).rest, ← hts, List.length_cons] at hshorter
    omega
  · rw [← hline]
    rfl

end Parser

open Surface.Parser (lastLine)

/-- Reading a text comes to the tokens `ws`, after `before` and with `us` behind. It cannot read a construct there, for
the reason `e`, and skips them. -/
structure Skips (source : String) (before : List Item) (e : ParseError) (ws us : List Token) : Prop where
  reached : ∃ xs, Taken (nextItem (Text.lines source) (fuelFor (Scan.scan source))) (Scan.scan source) xs (ws ++ us) ∧
    xs.map (·.1) = before
  fails : item (Text.lines source) (fuelFor (Scan.scan source)) (ws ++ us) = .error e
  skipped : (recover (Text.lines source) e (ws ++ us)).2 = us
  nonempty : ws ≠ []

/-- The text of the whole lines on which some tokens stand. -/
def spanText (source : String) (ws : List Token) : String :=
  linesText (Text.lines source) (next ws).pos.line (lastLine 0 ws)

/-- The text of a construct ends, blanks aside, with a closing brace or with one and a semicolon. -/
def EndsInBrace (text : String) : Prop := ∃ s, Text.trimEnd text = s ++ "\x7d" ∨ Text.trimEnd text = s ++ "\x7d;"

/-- An unsupported statement at top level stands for a construct that is skipped. -/
theorem skips_of_parse {source : String} {before after : List Item} {text reason : String} {pos : Pos}
    (h : parse source = before ++ .stmt (.unsupported text reason pos) :: after) :
    ∃ e ws us, Skips source before e ws us ∧ text = spanText source ws ∧ reason = e.message ∧ pos = (next ws).pos := by
  obtain ⟨xs, q, htaken, hitems, -⟩ := parse_taken source
  -- the tokens where the item begins
  obtain ⟨as, bs, rfl, has, hbs⟩ := List.map_eq_append_iff.mp (hitems.symm.trans h)
  obtain ⟨x, cs, rfl, hx, -⟩ := List.map_eq_cons_iff.mp hbs
  obtain ⟨ts, hreached, hcons⟩ := htaken.of_append
  cases hcons with
  | @cons _ ws us _ i _ hstep htakes hne hrest =>
    obtain rfl : i = _ := hx
    obtain ⟨e, hitem, hrecover⟩ := Parser.recover_of_nextItem hstep
    obtain ⟨t, ts, rfl⟩ : ∃ t ts', ts = t :: ts' := by
      cases htakes with
      | nil => exact absurd rfl hne
      | cons t _ => exact ⟨t, _, rfl⟩
      | half p _ => exact ⟨_, _, rfl⟩
    have heof : t.kind ≠ .eof := by
      obtain ⟨kind, p⟩ := t
      rintro rfl
      cases hrecover
      exact hne htakes.eof_left
    obtain ⟨vs, us', hts, hvs, hskip⟩ := Parser.recover_line (Text.lines source) e heof ts
    cases hskip.symm.trans hrecover
    cases vs with
    | nil => exact absurd rfl hvs
    | cons v vs =>
      obtain ⟨rfl, hrest⟩ := List.cons.inj hts
      rw [hts] at hreached hitem hrecover
      exact ⟨e, t :: vs, _, ⟨⟨as, hreached, has⟩, hitem, congrArg Prod.snd hrecover, hvs⟩, rfl, rfl, rfl⟩

end Surface

namespace Instrumented

open Surface (Item)

/-! ## What items add to the statements at top level -/

/-- The state in which lowering a text starts. -/
def Lowering.start : Lowering := ⟨none, []⟩

/-- The statements that items add to those at top level. -/
def added (lines : List String) (items : List Item) (s : Lowering) : List Stmt :=
  (lowerItems lines [] [] items s).1.2.reverse

/-- What lowering remembers behind some items. -/
def remembered (lines : List String) (items : List Item) (s : Lowering) : Lowering := (lowerItems lines [] [] items s).2

section

variable {lines : List String} {s : Lowering}

/-- What a construct that could not be read adds: a statement that fails, unless its text is taken for that of a
declaration. -/
def gapStmts (text reason : String) (pos : Pos) : List Stmt :=
  if isDeclarationText text then [] else [.act pos.line false (.unsupported text reason)]

theorem lowerItem_unsupported (fs : List Function) (driver : List Stmt) (text reason : String) (pos : Pos)
    (s : Lowering) : lowerItem lines fs driver (.stmt (.unsupported text reason pos)) s =
      ((fs, gapStmts text reason pos ++ driver), { s with degradations := ⟨text, reason, pos⟩ :: s.degradations }) := by
  have hdegrade (f : Unit → Lower (List Function × List Stmt)) : (degrade text reason pos >>= f) s =
      f () { s with degradations := ⟨text, reason, pos⟩ :: s.degradations } := rfl
  unfold lowerItem gapStmts
  dsimp only
  rw [hdegrade]
  cases isDeclarationText text <;> rfl

/-- A statement that was read adds what it is lowered to. -/
theorem lowerItem_stmt {t : Surface.Stmt} (ht : Surface.Parser.Proper t) (fs : List Function) (driver : List Stmt)
    (s : Lowering) : lowerItem lines fs driver (.stmt t) s =
      ((fs, (lowerStmt lines t s).1.toList ++ driver), (lowerStmt lines t s).2) := by
  have hbind (c : Lower (Option Stmt)) (f : Option Stmt → Lower (List Function × List Stmt)) :
      (c >>= f) s = f (c s).1 (c s).2 := rfl
  cases t with
  | unsupported text reason pos => exact absurd rfl (ht text reason pos)
  | _ =>
    unfold lowerItem
    dsimp only
    rw [hbind]
    cases (lowerStmt lines _ s).1 <;> rfl

/-- What an item adds to the statements at top level depends neither on these nor on the functions. -/
theorem lowerItem_driver (fs : List Function) (driver : List Stmt) (i : Item) (s : Lowering) :
    (lowerItem lines fs driver i s).1.2 = (lowerItem lines [] [] i s).1.2 ++ driver ∧
      (lowerItem lines fs driver i s).2 = (lowerItem lines [] [] i s).2 := by
  cases i with
  | function f => exact ⟨rfl, rfl⟩
  | declared => exact ⟨rfl, rfl⟩
  | stmt t =>
    by_cases ht : Surface.Parser.Proper t
    · simp [lowerItem_stmt ht]
    · obtain ⟨text, reason, pos, rfl⟩ : ∃ text reason pos, t = .unsupported text reason pos := by
        simpa [Surface.Parser.Proper] using ht
      simp [lowerItem_unsupported]

theorem lowerItems_driver (fs : List Function) (driver : List Stmt) (items : List Item) (s : Lowering) :
    (lowerItems lines fs driver items s).1.2 = (added lines items s).reverse ++ driver ∧
      (lowerItems lines fs driver items s).2 = remembered lines items s := by
  unfold added remembered
  rw [List.reverse_reverse]
  induction items generalizing fs driver s with
  | nil => exact ⟨rfl, rfl⟩
  | cons i items ih =>
    have hcons (fs : List Function) (driver : List Stmt) : lowerItems lines fs driver (i :: items) s =
        lowerItems lines (lowerItem lines fs driver i s).1.1 (lowerItem lines fs driver i s).1.2 items
          (lowerItem lines fs driver i s).2 := rfl
    have hitem : (lowerItem lines fs driver i s).1.2 = _ ∧ (lowerItem lines fs driver i s).2 = _ :=
      lowerItem_driver fs driver i s
    obtain ⟨hdriver, hstate⟩ := hitem
    rw [hcons, hcons, hdriver, hstate]
    constructor
    · rw [(ih _ _ _).1, (ih _ (lowerItem lines [] [] i s).1.2 _).1, List.append_assoc]
    · rw [(ih _ _ _).2, (ih _ (lowerItem lines [] [] i s).1.2 _).2]

theorem lowerItems_append (fs : List Function) (driver : List Stmt) (is js : List Item) (s : Lowering) :
    lowerItems lines fs driver (is ++ js) s =
      lowerItems lines (lowerItems lines fs driver is s).1.1 (lowerItems lines fs driver is s).1.2 js
        (lowerItems lines fs driver is s).2 := by
  induction is generalizing fs driver s with
  | nil => rfl
  | cons i is ih => exact ih _ _ _

/-- Items that follow add their statements behind the others. -/
theorem added_append (is js : List Item) (s : Lowering) :
    added lines (is ++ js) s = added lines is s ++ added lines js (remembered lines is s) := by
  rw [added, lowerItems_append, (lowerItems_driver _ _ _ _).1, List.reverse_append, List.reverse_reverse]
  rfl

theorem added_singleton (i : Item) (s : Lowering) : added lines [i] s = (lowerItem lines [] [] i s).1.2.reverse := rfl

theorem added_unsupported (text reason : String) (pos : Pos) (s : Lowering) :
    added lines [.stmt (.unsupported text reason pos)] s = gapStmts text reason pos := by
  rw [added_singleton, lowerItem_unsupported, List.append_nil, gapStmts]
  cases isDeclarationText text <;> rfl

theorem translate_driver (source : String) :
    (translate source).driver = added (Text.lines source) (Surface.parse source) .start := by
  have hadded : added (Text.lines source) (Surface.parse source) .start =
      ((lowerItems (Text.lines source) [] [] (Surface.parse source)).run ⟨none, []⟩).1.2.reverse := rfl
  rw [hadded]
  unfold translate
  generalize (lowerItems (Text.lines source) [] [] (Surface.parse source)).run ⟨none, []⟩ = r
  obtain ⟨⟨functions, driver⟩, s⟩ := r
  rfl

/-- The text of a construct is taken for that of a declaration if it ends with a brace, or with one and a semicolon. -/
theorem isDeclarationText_iff {text : String} : isDeclarationText text ↔ Surface.EndsInBrace text := by
  have hends (u : String) : (∃ s, Text.trimEnd text = s ++ u) ↔
      u.toList.reverse <+: (Text.trimEnd text).toList.reverse := by
    rw [List.reverse_prefix]
    constructor
    · rintro ⟨s, hs⟩
      rw [hs, String.toList_append]
      exact List.suffix_append _ _
    · rintro ⟨cs, hcs⟩
      refine ⟨String.ofList cs, ?_⟩
      rw [← String.toList_inj, String.toList_append, String.toList_ofList, hcs]
  rw [Surface.EndsInBrace, exists_or, hends, hends]
  unfold isDeclarationText
  generalize (Text.trimEnd text).toList.reverse = t
  have hbrace : "\x7d".toList.reverse = ['\x7d'] := by decide
  have hsemicolon : "\x7d;".toList.reverse = [';', '\x7d'] := by decide
  rw [hbrace, hsemicolon, List.prefix_iff_eq_take, List.prefix_iff_eq_take]
  cases t with
  | nil => simp
  | cons c t => simp [@eq_comm _ c, @eq_comm _ (t.take 1)]

theorem gapStmts_of_endsInBrace {text : String} (h : Surface.EndsInBrace text) (reason : String) (pos : Pos) :
    gapStmts text reason pos = [] := if_pos (isDeclarationText_iff.mpr h)

theorem gapStmts_of_not_endsInBrace {text : String} (h : ¬ Surface.EndsInBrace text) (reason : String) (pos : Pos) :
    gapStmts text reason pos = [.act pos.line false (.unsupported text reason)] :=
  if_neg fun hdeclares => h (isDeclarationText_iff.mp hdeclares)

end

/-- An unsupported statement at top level adds its statement between those of the items before it and those of the
items behind it. -/
theorem driver_of_parse {source : String} {before after : List Item} {text reason : String} {pos : Pos}
    (h : Surface.parse source = before ++ .stmt (.unsupported text reason pos) :: after) :
    ∃ s, (translate source).driver = added (Text.lines source) before .start ++ gapStmts text reason pos ++
      added (Text.lines source) after s := by
  have hsplit : before ++ .stmt (.unsupported text reason pos) :: after =
      before ++ [.stmt (.unsupported text reason pos)] ++ after := by simp
  rw [translate_driver, h, hsplit, added_append, added_append, added_unsupported]
  exact ⟨_, rfl⟩

end Instrumented

/-! ## Runs -/

namespace Instrumented.Program

variable {p : Program} {config : Config} {before after : List Stmt} {line fuel : Nat} {text reason : String}

/-- A run that comes to an unsupported statement at top level fails there. -/
theorem halt_of_gap (hdriver : p.driver = before ++ .act line false (.unsupported text reason) :: after) {m : Machine}
    (h : Exec.sequence (Exec.meaning ⟨p, config⟩ (fuel + 1)).run before .initial = .ok .normal m) :
    (p.run config (fuel + 1)).halt = some (.failed ⟨if m.recorder.events.size ≤ config.maxEvents then
      .unsupported text reason else .eventLimit config.maxEvents, line⟩) := by
  have hgap : (Exec.meaning ⟨p, config⟩ (fuel + 1)).run (.act line false (.unsupported text reason)) m =
      .error (.failed ⟨if m.recorder.events.size ≤ config.maxEvents then .unsupported text reason
        else .eventLimit config.maxEvents, line⟩) { m with line } := by
    by_cases hevents : m.recorder.events.size ≤ config.maxEvents
    · have hbegin : Exec.begin ⟨p, config⟩ line false m = .ok () { m with line } := if_neg (Nat.not_lt.mpr hevents)
      rw [if_pos hevents]
      exact Exec.bind_of_ok hbegin
    · have hbegin : Exec.begin ⟨p, config⟩ line false m =
          .error (.failed ⟨.eventLimit config.maxEvents, line⟩) { m with line } := if_pos (Nat.lt_of_not_le hevents)
      rw [if_neg hevents]
      exact Exec.bind_of_error hbegin
  have hsequence : Exec.sequence (Exec.meaning ⟨p, config⟩ (fuel + 1)).run p.driver .initial =
      .error (.failed ⟨if m.recorder.events.size ≤ config.maxEvents then .unsupported text reason
        else .eventLimit config.maxEvents, line⟩) { m with line } := by
    rw [hdriver, Exec.sequence_append_of_ok _ h]
    exact Exec.bind_of_error hgap
  have hrun : Exec.runProgram (Exec.meaning ⟨p, config⟩ (fuel + 1)) ⟨p, config⟩ .initial = _ :=
    Exec.bind_of_error (Exec.bind_of_error hsequence)
  exact congrArg (fun r => (Outcome.ofResult r).halt) hrun

end Instrumented.Program

namespace Surface

open Instrumented (added translate)
open Surface.Parser (fuelFor item items nextItem recover next)

/-- An unsupported statement at top level stands for a construct that was skipped, and has the text of the whole lines
of that. If this ends with a brace, nothing is left of it among the statements at top level. Otherwise a statement
stands in its place there, and a run that comes to it fails. -/
theorem unsupported_in_driver {source : String} {before after : List Item} {text reason : String} {pos : Pos}
    (h : parse source = before ++ .stmt (.unsupported text reason pos) :: after) :
    (∃ e ws us, Skips source before e ws us ∧ text = spanText source ws ∧ reason = e.message ∧ pos = (next ws).pos) ∧
    ∃ s, (EndsInBrace text → (translate source).driver =
        added (Text.lines source) before .start ++ added (Text.lines source) after s) ∧
      (¬ EndsInBrace text → (translate source).driver = added (Text.lines source) before .start ++
        .act pos.line false (.unsupported text reason) :: added (Text.lines source) after s) ∧
      (¬ EndsInBrace text → ∀ config fuel m,
        Exec.sequence (Exec.meaning ⟨translate source, config⟩ (fuel + 1)).run (added (Text.lines source) before .start)
          .initial = .ok .normal m →
        ((translate source).run config (fuel + 1)).halt = some (.failed ⟨if m.recorder.events.size ≤ config.maxEvents then
          .unsupported text reason else .eventLimit config.maxEvents, pos.line⟩)) := by
  obtain ⟨s, hdriver⟩ := Instrumented.driver_of_parse h
  have hkept : ¬ EndsInBrace text → (translate source).driver = added (Text.lines source) before .start ++
      .act pos.line false (.unsupported text reason) :: added (Text.lines source) after s := by
    intro hends
    rw [hdriver, Instrumented.gapStmts_of_not_endsInBrace hends, List.append_assoc, List.singleton_append]
  refine ⟨skips_of_parse h, s, fun hends => ?_, hkept, fun hends config fuel m hbefore => ?_⟩
  · rw [hdriver, Instrumented.gapStmts_of_endsInBrace hends, List.append_nil]
  · exact Instrumented.Program.halt_of_gap (hkept hends) hbefore

/-- A declaration without its value, with some tokens behind it. -/
def valueless (us : List Token) : List Token :=
  ⟨.word .int, ⟨1, 1⟩⟩ :: ⟨.name "x", ⟨1, 5⟩⟩ :: ⟨.mark .eq, ⟨1, 7⟩⟩ :: ⟨.mark .semicolon, ⟨1, 9⟩⟩ :: us

theorem item_valueless (lines : List String) (n : Nat) (us : List Token) :
    item lines (n + 20) (valueless us) = .error (.unexpected (.mark .semicolon)) := rfl

theorem nextItem_valueless (lines : List String) (n : Nat) (us : List Token) :
    nextItem lines (n + 20) (valueless us) =
      (.stmt (.unsupported (Parser.linesText lines 1 1) "Unexpected token: ';'" ⟨1, 1⟩), us) := by
  rw [nextItem, item_valueless]
  rfl

theorem parse_valueless : parse "int x = ;" =
    [] ++ .stmt (.unsupported "int x = ;" "Unexpected token: ';'" ⟨1, 1⟩) :: [] := by
  have hscan : Scan.scan "int x = ;" = valueless [⟨.eof, ⟨1, 10⟩⟩] := by cbv
  have htext : Parser.linesText (Text.lines "int x = ;") 1 1 = "int x = ;" := by cbv
  have hfuel : fuelFor (valueless [⟨.eof, ⟨1, 10⟩⟩]) = 76 + 20 := rfl
  unfold parse
  dsimp only
  rw [hscan, hfuel, valueless, Parser.items_cons (by simp), ← valueless, nextItem_valueless, htext]
  rfl

/-- A run of a text that is nothing but such a declaration fails. -/
theorem unsupported_in_driver_valueless :
    ((translate "int x = ;").run .default 1).halt = some (.failed ⟨.unsupported "int x = ;" "Unexpected token: ';'", 1⟩) := by
  obtain ⟨-, s, -, -, hfails⟩ := unsupported_in_driver parse_valueless
  have hends : ¬ EndsInBrace "int x = ;" := by
    intro h
    have hdeclares := Instrumented.isDeclarationText_iff.mpr h
    exact absurd hdeclares (by decide)
  have hevents : Machine.initial.recorder.events.size ≤ Config.default.maxEvents := Nat.zero_le _
  have hhalt := hfails hends .default 0 .initial rfl
  rwa [if_pos hevents] at hhalt

/-- The same declaration with a function behind it, on the same line. -/
def crowded : String := "int x = ; int main() \x7b cout << \"a\"; \x7d"

/-- The tokens of the function. -/
def printingMain : List Token := [⟨.word .int, ⟨1, 11⟩⟩, ⟨.name "main", ⟨1, 15⟩⟩, ⟨.mark .lparen, ⟨1, 19⟩⟩,
  ⟨.mark .rparen, ⟨1, 20⟩⟩, ⟨.mark .lbrace, ⟨1, 22⟩⟩, ⟨.name "cout", ⟨1, 24⟩⟩, ⟨.mark .ltLt, ⟨1, 29⟩⟩, ⟨.str "a", ⟨1, 32⟩⟩,
  ⟨.mark .semicolon, ⟨1, 35⟩⟩, ⟨.mark .rbrace, ⟨1, 37⟩⟩, ⟨.eof, ⟨1, 38⟩⟩]

theorem scan_crowded : Scan.scan crowded = valueless printingMain := by
  show Scan.scan "int x = ; int main() \x7b cout << \"a\"; \x7d" = _
  cbv

theorem fuelFor_crowded : fuelFor (Scan.scan crowded) = 236 + 20 := by
  rw [scan_crowded]
  rfl

theorem parse_crowded : parse crowded =
    [] ++ .stmt (.unsupported crowded "Unexpected token: ';'" ⟨1, 1⟩) :: [.function ⟨"main", .scalar .int false false, [],
      [.output [.str "a" ⟨1, 32⟩] ⟨1, 24⟩], ⟨1, 15⟩, ⟨1, 37⟩⟩] := by
  have htext : Parser.linesText (Text.lines crowded) 1 1 = crowded := by
    show Parser.linesText (Text.lines "int x = ; int main() \x7b cout << \"a\"; \x7d") 1 1 = _
    cbv
  have hfunction (lines : List String) (n : Nat) : nextItem lines (n + 20) printingMain =
      (.function ⟨"main", .scalar .int false false, [], [.output [.str "a" ⟨1, 32⟩] ⟨1, 24⟩], ⟨1, 15⟩, ⟨1, 37⟩⟩,
        [⟨.eof, ⟨1, 38⟩⟩]) := rfl
  unfold parse
  dsimp only
  rw [fuelFor_crowded, scan_crowded, valueless, Parser.items_cons (by simp), ← valueless, nextItem_valueless, htext]
  dsimp only [valueless, List.length_cons]
  rw [printingMain, Parser.items_cons (by simp), ← printingMain, hfunction]
  rfl

/-- The declaration holds no brace, and nothing of it is left: the text of its line ends with one. -/
theorem not_unsupported_kept : ¬ ∀ source before after text reason pos e ws us,
    parse source = before ++ .stmt (.unsupported text reason pos) :: after → Skips source before e ws us →
    (∀ t ∈ ws, isBrace t.kind = false) → .act pos.line false (.unsupported text reason) ∈ (translate source).driver := by
  intro h
  have hskips : Skips crowded [] (.unexpected (.mark .semicolon)) (valueless []) printingMain := by
    refine ⟨⟨[], ?_, rfl⟩, ?_, rfl, List.cons_ne_nil _ _⟩
    · rw [scan_crowded]
      exact .nil _
    · rw [fuelFor_crowded]
      exact item_valueless _ _ _
  have hkept := h _ _ _ _ _ _ _ _ _ parse_crowded hskips (by decide)
  obtain ⟨s, hdriver⟩ := Instrumented.driver_of_parse parse_crowded
  have hgap : Instrumented.gapStmts crowded "Unexpected token: ';'" ⟨1, 1⟩ = [] := if_pos (by decide)
  rw [hdriver, hgap] at hkept
  cases hkept

end Surface

end CallTrace
