import CallTrace.Proofs.Parser.Walks

/-! # What reading leaves

A reader that succeeds takes tokens from the front and leaves the others, whatever its fuel is.

* `Passed ts us`: from `ts` to `us` tokens are taken, and the end of the file is none of them.
* `Parser.Passes p`: so it is from where `p` starts to where it succeeds. One rule stands for each way in which
  readers are put together.
* `Parser.passesExpr`: expressions.
-/

namespace CallTrace.Surface
set_option autoImplicit false

/-- From `ts` to `us` tokens are taken, none of them the end of the file. -/
def Passed (ts us : List Token) : Prop := ∃ ws, Takes ts ws us ∧ ∀ t ∈ ws, t.kind ≠ .eof

namespace Passed

variable {ts us vs : List Token}

theorem refl (ts : List Token) : Passed ts ts := ⟨[], .nil ts, nofun⟩

theorem trans (h : Passed ts us) (h' : Passed us vs) : Passed ts vs := by
  obtain ⟨ws, hws, hne⟩ := h
  obtain ⟨xs, hxs, hne'⟩ := h'
  exact ⟨ws ++ xs, hws.trans hxs, fun t ht => (List.mem_append.mp ht).elim (hne t) (hne' t)⟩

theorem one {t : Token} (ht : t.kind ≠ .eof) (ts : List Token) : Passed (t :: ts) ts :=
  ⟨[t], .cons t (.nil ts), fun _ hu => List.eq_of_mem_singleton hu ▸ ht⟩

theorem of_walked {ph ph' : Phase} (h : Walked ph ph' ts us) : Passed ts us := by
  obtain ⟨ws, hws, hkinds, -⟩ := h
  exact ⟨ws, hws, fun t ht => (hkinds t ht).1⟩

/-- The lines of what is left are lines of the tokens, in the same order. -/
theorem lines_sublist (h : Passed ts us) : (us.map (·.pos.line)).Sublist (ts.map (·.pos.line)) := by
  obtain ⟨ws, hws, -⟩ := h
  induction hws with
  | nil ts => exact .refl _
  | cons t h ih => exact ih.cons _
  | half p h ih => exact ih

/-- The end of the file is left. -/
theorem ends (h : Passed ts us) (hts : ∃ t ∈ ts, t.kind = .eof) : ∃ t ∈ us, t.kind = .eof := by
  obtain ⟨ws, hws, hne⟩ := h
  induction hws with
  | nil ts => exact hts
  | cons t h ih =>
    obtain ⟨u, hu, heof⟩ := hts
    rcases List.mem_cons.mp hu with rfl | hu
    · exact absurd heof (hne u List.mem_cons_self)
    · exact ih ⟨u, hu, heof⟩ fun t ht => hne t (List.mem_cons_of_mem _ ht)
  | half p h ih =>
    obtain ⟨u, hu, heof⟩ := hts
    rcases List.mem_cons.mp hu with rfl | hu
    · cases heof
    · exact ih ⟨u, List.mem_cons_of_mem _ hu, heof⟩ fun t ht => hne t (List.mem_cons_of_mem _ ht)

end Passed

namespace Parser

variable {α β : Type}

/-- When `p` succeeds, it has taken tokens from the front. -/
def Passes (p : Parser α) : Prop :=
  ∀ ⦃ts : List Token⦄ ⦃a : α⦄ ⦃us : List Token⦄, p ts = .ok (a, us) → Passed ts us

/-- As `Passes`, when the token `t` comes next. -/
def PassesAt (t : Token) (p : Parser α) : Prop :=
  ∀ ⦃ts : List Token⦄ ⦃a : α⦄ ⦃us : List Token⦄, next ts = t → p ts = .ok (a, us) → Passed ts us

/-! ## Rules -/

theorem Walks.passes {ph ph' : Phase} {p : Parser α} (h : Walks ph ph' p) : Passes p :=
  fun _ _ _ hp => .of_walked (h hp)

namespace Passes

theorem pure (a : α) : Passes (Pure.pure a : Parser α) := by
  rintro ts _ _ ⟨⟩
  exact .refl ts

theorem fail {e : ParseError} : Passes (throw e : Parser α) := by
  rintro ts _ _ ⟨⟩

theorem bind {p : Parser α} {f : α → Parser β} (h : Passes p) (hf : ∀ a, Passes (f a)) : Passes (p >>= f) := by
  intro ts b us hb
  obtain ⟨a, vs, ha, hb⟩ := ok_of_bind hb
  exact (h ha).trans (hf a hb)

theorem map {p : Parser α} {f : α → β} (h : Passes p) : Passes (f <$> p) :=
  h.bind fun a => .pure (f a)

theorem at? {m : Mark} {f : Bool → Parser β} (hf : ∀ b, Passes (f b)) : Passes (Parser.at? m >>= f) := by
  refine bind (fun ts a us h => ?_) hf
  unfold Parser.at? at h
  split at h <;> cases h <;> exact .refl _

theorem peek {f : Token → Parser β} (hf : ∀ t, PassesAt t (f t)) : Passes (Parser.peek >>= f) :=
  fun ts _ _ h => hf (next ts) rfl h

/-- A token that may come next, the end of the file excepted. -/
theorem acceptBy {γ : Type} {g : Token.Kind → Option α} {r : α → Pos → γ} (hg : g .eof = none) :
    Passes (Parser.acceptBy g r) := by
  intro ts o us h
  unfold Parser.acceptBy at h
  split at h
  · split at h
    · next ha =>
      cases h
      refine .one (fun heof => ?_) _
      rw [heof, hg] at ha
      cases ha
    · cases h
      exact .refl _
  · cases h
    exact .refl _

theorem accept (m : Mark) : Passes (Parser.accept m) := accept_by m ▸ acceptBy rfl

theorem acceptWord (k : Keyword) : Passes (Parser.acceptWord k) := acceptWord_by k ▸ acceptBy rfl

theorem expect (m : Mark) (place : String) : Passes (Parser.expect m place) := by
  intro ts p us h
  have hne : Token.Kind.mark m ≠ .eof := nofun
  rw [expect_ok h]
  exact .one hne us

end Passes

theorem PassesAt.of {t : Token} {p : Parser α} (h : Passes p) : PassesAt t p := fun _ _ _ _ hp => h hp

/-- The token that comes next is taken. -/
theorem PassesAt.advance {t : Token} {f : Unit → Parser β} (hf : Passes (f ())) (heof : t.kind ≠ .eof := by simp) :
    PassesAt t (advance >>= f) := by
  intro ts b us hnext h
  cases ts with
  | nil => exact absurd (hnext ▸ rfl) heof
  | cons u ts =>
    obtain rfl : u = t := hnext
    have hb : f () (rest (u :: ts)) = .ok (b, us) := h
    rw [rest_cons heof] at hb
    exact (Passed.one heof ts).trans (hf hb)

theorem passes_expectWord (k : Keyword) (place : String) : Passes (expectWord k place) := by
  refine (Passes.acceptWord k).bind fun o => ?_
  cases o with
  | some p => exact .pure ()
  | none => exact .peek fun t => .of .fail

/-! ## Expressions -/

theorem passes_vectorOf (element : Ty) (p : Pos) (es : List Expr) : Passes (vectorOf element p es) := by
  match es with
  | [] | [size] | [size, fill] => exact .pure _
  | _ :: _ :: _ :: _ => exact .fail

/-- All readers of expressions, with `n` units of fuel. -/
structure PassesExpr (n : Nat) : Prop where
  expr : Passes (expr n)
  ternary : Passes (ternary n)
  binary (level : Nat) : Passes (binary n level)
  binaryTail (level : Nat) (left : Expr) : Passes (binaryTail n level left)
  unary : Passes (unary n)
  suffixed : Passes (suffixed n)
  suffixes (e : Expr) : Passes (suffixes n e)
  arguments : Passes (arguments n)
  expressions : Passes (expressions n)
  listItems : Passes (listItems n)
  vectorArguments (element : Ty) (p : Pos) : Passes (vectorArguments n element p)
  primary : Passes (primary n)

namespace PassesExpr

variable {n : Nat} (h : PassesExpr n)
include h

theorem expr_succ : Passes (Parser.expr (n + 1)) := by
  unfold Parser.expr
  refine h.ternary.bind fun target => (Passes.accept .eq).bind fun o => ?_
  cases o with
  | some p => exact h.expr.bind fun _ => .pure _
  | none =>
    have hcompound : Passes acceptCompound := acceptCompound_by ▸ .acceptBy rfl
    refine hcompound.bind fun c => ?_
    cases c with
    | some c => exact h.expr.bind fun _ => .pure _
    | none => exact .pure _

theorem ternary_succ : Passes (Parser.ternary (n + 1)) := by
  unfold Parser.ternary
  refine (h.binary 0).bind fun cond => (Passes.accept .question).bind fun o => ?_
  cases o with
  | some p => exact h.expr.bind fun _ => (Passes.expect ..).bind fun _ => h.ternary.bind fun _ => .pure _
  | none => exact .pure _

theorem binary_succ (level : Nat) : Passes (Parser.binary (n + 1) level) := by
  unfold Parser.binary
  by_cases hlt : level < 6
  · simp only [if_pos hlt]
    exact (h.binary (level + 1)).bind fun left => h.binaryTail level left
  · simp only [if_neg hlt]
    exact h.unary.bind fun left => .pure left

theorem binaryTail_succ (level : Nat) (left : Expr) : Passes (Parser.binaryTail (n + 1) level left) := by
  unfold Parser.binaryTail
  have hop : Passes (acceptBinOp level) := acceptBinOp_by level ▸ .acceptBy rfl
  refine hop.bind fun o => ?_
  cases o with
  | some o => exact (h.binary (level + 1)).bind fun right => h.binaryTail level _
  | none => exact .pure left

theorem unary_succ : Passes (Parser.unary (n + 1)) := by
  unfold Parser.unary
  refine .peek fun t => ?_
  obtain ⟨kind, p⟩ := t
  cases kind with
  | mark m =>
    cases m
    case bang | minus | plusPlus | minusMinus => exact .advance (h.unary.bind fun e => .pure _)
    case plus => exact .advance h.unary
    all_goals exact .of h.suffixed
  | _ => exact .of h.suffixed

theorem suffixed_succ : Passes (Parser.suffixed (n + 1)) := by
  unfold Parser.suffixed
  exact h.primary.bind fun e => h.suffixes e

theorem suffixes_succ (e : Expr) : Passes (Parser.suffixes (n + 1) e) := by
  unfold Parser.suffixes
  refine .peek fun t => ?_
  obtain ⟨kind, p⟩ := t
  cases kind with
  | mark m =>
    cases m
    case plusPlus | minusMinus => exact .advance (h.suffixes _)
    case lbracket => exact .advance (h.expr.bind fun i => (Passes.expect ..).bind fun _ => h.suffixes _)
    case dot =>
      exact .advance (walks_expectName.passes.bind fun _ => (Passes.expect ..).bind fun _ =>
        h.arguments.bind fun args => (Passes.expect ..).bind fun _ => h.suffixes _)
    case lparen =>
      refine .advance (h.arguments.bind fun args => (Passes.expect ..).bind fun _ => ?_)
      cases e
      case var name q => exact h.suffixes _
      all_goals exact .fail
    all_goals exact .of (.pure e)
  | _ => exact .of (.pure e)

theorem arguments_succ : Passes (Parser.arguments (n + 1)) := by
  unfold Parser.arguments
  refine .at? fun b => ?_
  cases b with
  | true => exact .pure []
  | false => exact h.expressions

theorem expressions_succ : Passes (Parser.expressions (n + 1)) := by
  unfold Parser.expressions
  refine h.expr.bind fun e => (Passes.accept .comma).bind fun o => ?_
  cases o with
  | some p => exact h.expressions.bind fun _ => .pure _
  | none => exact .pure _

theorem listItems_succ : Passes (Parser.listItems (n + 1)) := by
  unfold Parser.listItems
  refine .at? fun b => ?_
  cases b with
  | true => exact .pure []
  | false =>
    refine h.expr.bind fun e => (Passes.accept .comma).bind fun o => ?_
    cases o with
    | some p => exact h.listItems.bind fun _ => .pure _
    | none => exact .pure _

theorem vectorArguments_succ (element : Ty) (p : Pos) : Passes (Parser.vectorArguments (n + 1) element p) := by
  unfold Parser.vectorArguments
  exact h.arguments.bind fun args => (Passes.expect ..).bind fun _ => passes_vectorOf element p args

theorem primary_succ : Passes (Parser.primary (n + 1)) := by
  unfold Parser.primary
  refine .peek fun t => ?_
  obtain ⟨kind, p⟩ := t
  cases kind
  case int | float | char | str | name => exact .advance (.pure _)
  case word k =>
    cases k
    case trueWord | falseWord => exact .advance (.pure _)
    case vector =>
      exact .advance (((walks_types n).2 0).passes.bind fun element => (walks_tyMarks 0).passes.bind fun _ =>
        (Passes.expect ..).bind fun q => h.vectorArguments element q)
    all_goals exact .of .fail
  case mark m =>
    cases m
    case lparen => exact .advance (h.expr.bind fun e => (Passes.expect ..).bind fun _ => .pure e)
    case lbrace => exact .advance (h.listItems.bind fun items => (Passes.expect ..).bind fun _ => .pure _)
    all_goals exact .of .fail
  all_goals exact .of .fail

end PassesExpr

theorem passesExpr (n : Nat) : PassesExpr n := by
  induction n with
  | zero =>
    exact ⟨.fail, .fail, fun _ => .fail, fun _ _ => .fail, .fail, .fail, fun _ => .fail, .fail, .fail, .fail,
      fun _ _ => .fail, .fail⟩
  | succ n h =>
    exact ⟨h.expr_succ, h.ternary_succ, h.binary_succ, h.binaryTail_succ, h.unary_succ, h.suffixed_succ,
      h.suffixes_succ, h.arguments_succ, h.expressions_succ, h.listItems_succ, h.vectorArguments_succ,
      h.primary_succ⟩

end Parser

end CallTrace.Surface
