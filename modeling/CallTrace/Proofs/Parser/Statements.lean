import CallTrace.Proofs.Parser.Expressions
import CallTrace.Proofs.Parser.Recovery

/-! # Statements in tandem

* `Parser.atFunction_tandem`: a head of a function is one in both lists.
* `Parser.SemicolonAhead`: where the search for the semicolon behind `using` ends. It alone passes tokens without
  counting braces, which is why `Twin` and `Uses` speak about `using`.
* `Parser.nextStmt`: a statement, read or skipped; the inside of braces goes from one to the next.
* `Parser.tandemStmt`: statements, the bodies of other statements, and the insides of braces.
-/

namespace CallTrace.Surface
set_option autoImplicit false

namespace Parser

variable {w : Tails} {σ : Spot} {N M d n m : Nat} {lines : List String}

theorem takeable_word {k : Keyword} (h : k ≠ .vector ∧ k ≠ .usingWord) : Takeable (.plain d) (.plain d) (.word k) :=
  takeable_plain (fun hk => h.1 (Token.Kind.word.inj hk)) nofun rfl fun hk => h.2 (Token.Kind.word.inj hk)

/-! ## Declarations -/

theorem atType_twin {ts us : List Token} (h : Twin w (.plain d) ts us) : atType us = atType ts := by
  obtain ⟨⟨k, p⟩, ts, us, rfl, rfl, -⟩ := h.head_eq plain_not_closing
  cases k <;> rfl

/-- Readings that agree on a yes or a no give the same answer, a failure being a no. -/
theorem Agreed.succeeded_eq {k : Nat} {V : Bool → Prop} {σ' : Spot} {ts us : List Token}
    {r s : Except ParseError (Bool × List Token)} : Agreed w V k σ σ' ts us r s →
    (match s with | .ok (b, _) => b | .error _ => false) = match r with | .ok (b, _) => b | .error _ => false
  | .ok .. => rfl
  | .error _ => rfl

/-- A head of a function is one in both lists. -/
theorem atFunction_tandem {ts us : List Token} (h : Twin w (.plain d) ts us) (hfits : Fits 1 n m ts.length us.length) :
    atFunction m us = atFunction n ts := by
  let head (n : Nat) : Parser Bool := do
    let _ ← ty n
    let _ ← expectName
    let _ ← expect .lparen ""
    let us ← get
    return (← at? .rparen) || atType us
  have hhead : Tandem w Any 1 ts.length us.length (.plain d) (.plain d) (head n) (head m) := by
    refine (tandem_ty hfits).bind fun _ _ _ _ _ => (Tandem.expectName.mono (Nat.zero_le _)).bind fun _ _ _ _ _ =>
      ((Tandem.expectMark _).mono (Nat.zero_le _)).bind fun _ _ _ _ _ => .get fun ts us htwin _ _ => .at? fun b => ?_
    rw [atType_twin htwin]
    exact .pure trivial
  exact (hhead h (Nat.le_refl _) (Nat.le_refl _)).succeeded_eq

theorem tandem_expr (hfits : Fits 13 n m N M) : Tandem w Any 1 N M (.plain d) (.plain d) (expr n) (expr m) :=
  (tandemExpr w n m).expr hfits

theorem tandem_soleArgument (es : List Expr) :
    Tandem w Any 0 N M (.plain d) (.plain d) (soleArgument es) (soleArgument es) := by
  match es with
  | [e] => exact .pure trivial
  | [] | _ :: _ :: _ => exact .fail

theorem tandem_exprUnless (k : Mark) (hfits : Fits 13 n m N M) :
    Tandem w Any 0 N M (.plain d) (.plain d) (exprUnless k n) (exprUnless k m) := by
  refine .at? fun b => ?_
  cases b with
  | true => exact .pure trivial
  | false => exact ((tandem_expr hfits).mono (Nat.zero_le _)).bind fun _ _ _ _ _ => .pure trivial

theorem tandem_arraySize (hfits : Fits 13 n m N M) :
    Tandem w Any 0 N M (.plain d) (.plain d) (arraySize n) (arraySize m) := by
  have hclose (o : Option Expr) {N M : Nat} : Tandem w Any 0 N M (.plain d) (.plain d)
      (expect .rbracket "after array size" >>= fun _ => pure o)
      (expect .rbracket "after array size" >>= fun _ => pure o) :=
    (Tandem.expectMark _).bind fun _ _ _ _ _ => .pure trivial
  refine .at? fun b => ?_
  cases b with
  | true => exact (Tandem.pure (V := Any) trivial).bind fun o _ _ _ _ => hclose o
  | false =>
    have hsize : Tandem w Any 1 N M (.plain d) (.plain d) (some <$> expr n) (some <$> expr m) :=
      (tandem_expr hfits).map fun _ _ => trivial
    exact (hsize.mono (Nat.zero_le _)).bind fun o _ _ _ _ => hclose o

theorem tandem_initializer (t : Ty) (hfits : Fits 13 n m N M) :
    Tandem w Any 0 N M (.plain d) (.plain d) (initializer n t) (initializer m t) := by
  refine .accept (takeable rfl) (by simp) (fun p _ _ _ => ?_) (.accept (takeable rfl) (by simp)
    (fun p _ _ _ => ?_) (.pure trivial))
  · exact ((tandem_expr (by omega)).mono (Nat.zero_le _)).bind fun _ _ _ _ _ => .pure trivial
  · cases t with
    | vector element _ _ =>
      exact (((tandemExpr w n m).vectorArguments element p (by omega)).mono (Nat.zero_le _)).bind
        fun _ _ _ _ _ => .pure trivial
    | scalar s _ _ =>
      exact ((tandemExpr w n m).arguments (by omega)).bind fun args _ _ _ _ => (Tandem.expectMark _).bind
        fun _ _ _ _ _ => (tandem_soleArgument args).bind fun _ _ _ _ _ => .pure trivial

theorem tandem_declaration (hfits : Fits 13 n m N M) :
    Tandem w Any 1 N M (.plain d) (.plain d) (declaration n) (declaration m) := by
  have hclose (v : VarDecl) {N M : Nat} : Tandem w Any 0 N M (.plain d) (.plain d)
      (pure v >>= fun v => expect .semicolon "after variable declaration" >>= fun _ => pure v)
      (pure v >>= fun v => expect .semicolon "after variable declaration" >>= fun _ => pure v) :=
    (Tandem.pure (V := Any) trivial).bind fun _ _ _ _ _ => (Tandem.expectMark _).bind fun _ _ _ _ _ => .pure trivial
  refine (tandem_ty (by omega)).bind fun base _ _ _ _ => (Tandem.expectName.mono (Nat.zero_le _)).bind ?_
  rintro ⟨name, pos⟩ - _ _ _
  refine .accept (takeable rfl) (by simp) (fun p _ _ _ => ?_) ?_
  · exact (tandem_arraySize (by omega)).bind fun size _ _ _ _ => (tandem_initializer _ (by omega)).bind
      fun init _ _ _ _ => hclose _
  · exact (tandem_initializer base (by omega)).bind fun init _ _ _ _ => hclose _

/-! ## Directives -/

/-- Where the search for the semicolon behind `using` ends: at the end of the file, or before a semicolon. Without
braces between, as many are open there as before. -/
inductive SemicolonAhead (w : Tails) (d : Nat) (ts us : List Token) : List Token → List Token → Prop where
  | eof (p : Pos) (vs ws : List Token) : SemicolonAhead w d ts us (⟨.eof, p⟩ :: vs) (⟨.eof, p⟩ :: ws)
  | semicolon {p : Pos} {vs ws xs : List Token} (htwin : Twin w (.plain d) vs ws)
      (hts : ts = xs ++ ⟨.mark .semicolon, p⟩ :: vs) (heof : ∀ t ∈ xs, t.kind ≠ .eof)
      (hdepth : usingClosed true xs → braceDepth d xs = some d) (hshorter : ws.length < us.length) :
      SemicolonAhead w d ts us (⟨.mark .semicolon, p⟩ :: vs) (⟨.mark .semicolon, p⟩ :: ws)

/-- The search goes on behind any other token. -/
theorem SemicolonAhead.cons {t : Token} {ts us us' vs ws : List Token} (heof : t.kind ≠ .eof)
    (hsemicolon : t.kind ≠ .mark .semicolon) (hus : us.length ≤ us'.length) (h : SemicolonAhead w d ts us vs ws) :
    SemicolonAhead w d (t :: ts) us' vs ws := by
  cases h with
  | eof p vs ws => exact .eof p vs ws
  | @semicolon p vs ws xs htwin hts hxs hdepth hshorter =>
    have hcons : t :: ts = (t :: xs) ++ ⟨.mark .semicolon, p⟩ :: vs := congrArg (t :: ·) hts
    refine .semicolon htwin hcons (List.forall_mem_cons.mpr ⟨heof, hxs⟩) ?_ (by omega)
    intro hclosed
    rw [usingClosed, Bool.and_eq_true] at hclosed
    obtain ⟨hbrace, hclosed⟩ := hclosed
    have hbrace : isBrace t.kind = false := by simpa using hbrace
    rw [braceDepth, braceStep_of_not_isBrace hbrace]
    exact hdepth (usingClosed_of_le (fun _ => usingStep_true hbrace hsemicolon) hclosed)

/-- The search for the semicolon ends alike. With `w.inner` there is no brace on its way. -/
theorem semicolonAhead {ts us : List Token} (h : Twin w σ ts us) (hσ : w.inner → σ.inUsing ∧ σ.braces = d) :
    SemicolonAhead w d ts us (toSemicolon ts) (toSemicolon us) := by
  induction h with
  | @stop σ t hstops =>
    obtain ⟨k, p⟩ := t
    rcases hstops with hk | ⟨hinner, -, -, husing⟩
    · obtain rfl : k = .eof := hk
      exact .eof p _ _
    · rw [(hσ hinner).1] at husing
      cases husing
  | @split σ hsplits p ts us hclosing h ih =>
    have hmore := ih hσ
    exact .cons (t := ⟨.mark .gtGt, p⟩) nofun nofun (by simp only [List.length_cons]; omega) hmore
  | @cons σ t ts us heof hallow h ih =>
    by_cases hsemicolon : t.kind = .mark .semicolon
    · obtain ⟨k, p⟩ := t
      obtain rfl : k = .mark .semicolon := hsemicolon
      have hnil : ⟨.mark .semicolon, p⟩ :: ts = [] ++ ⟨.mark .semicolon, p⟩ :: ts := rfl
      refine .semicolon ?_ hnil nofun (fun _ => rfl) (Nat.lt_succ_self _)
      cases hinner : w.inner with
      | false => exact h.of_phase_eq hinner rfl
      | true =>
        have hstep : σ.step (.mark .semicolon) = .plain d := Spot.step_plain (.inr rfl) (hσ hinner).2
        have hrest : Twin w (σ.step (.mark .semicolon)) ts us := h
        rwa [hstep] at hrest
    · have hskip {ts : List Token} : toSemicolon (t :: ts) = toSemicolon ts := by
        obtain ⟨k, p⟩ := t
        cases k with
        | mark k => cases k <;> first | rfl | exact absurd rfl hsemicolon
        | eof => exact absurd rfl heof
        | _ => rfl
      rw [hskip, hskip]
      refine .cons heof hsemicolon (Nat.le_succ _) (ih fun hinner => ?_)
      obtain ⟨husing, hbraces⟩ := hσ hinner
      have hbrace : isBrace t.kind = false := by
        refine Bool.eq_false_iff.mpr fun hbrace => ?_
        have husing' := (hallow hinner hbrace).1
        rw [husing] at husing'
        cases husing'
      refine ⟨?_, ?_⟩
      · show usingStep σ.inUsing t.kind = true
        rw [husing]
        exact usingStep_true hbrace hsemicolon
      · show (braceStep σ.braces t.kind).getD 0 = d
        rw [braceStep_of_not_isBrace hbrace, hbraces]
        rfl

/-- A directive, the word `using` of which comes next. -/
theorem tandem_using (p pos : Pos) :
    TandemAt w ⟨.word .usingWord, p⟩ Stmt.Settled 1 N M (.plain d) (.plain d)
      (advance >>= fun _ => modify toSemicolon >>= fun _ => expect .semicolon "after 'using'" >>= fun _ =>
        pure (.usingDirective pos))
      (advance >>= fun _ => modify toSemicolon >>= fun _ => expect .semicolon "after 'using'" >>= fun _ =>
        pure (.usingDirective pos)) := by
  intro ts us htwin hN hM
  have hahead : SemicolonAhead w d ts us (toSemicolon ts) (toSemicolon us) := by
    cases htwin with
    | stop hstops => rcases hstops with hk | ⟨-, hk, -⟩ <;> cases hk
    | cons heof hallow htwin => exact semicolonAhead htwin fun _ => ⟨rfl, rfl⟩
  have hreading (vs : List Token) : (advance >>= fun _ => modify toSemicolon >>= fun _ =>
      expect .semicolon "after 'using'" >>= fun _ => pure (.usingDirective pos) : Parser Stmt)
        (⟨.word .usingWord, p⟩ :: vs) =
      (expect .semicolon "after 'using'" >>= fun _ => pure (.usingDirective pos) : Parser Stmt) (toSemicolon vs) := rfl
  rw [hreading, hreading]
  generalize toSemicolon ts = vs, toSemicolon us = ws at hahead
  cases hahead with
  | eof q vs ws => exact .error nofun
  | @semicolon q vs ws xs htwin hts heof hdepth hshorter =>
    have hvs : vs.length + (xs.length + 2) = (⟨.word .usingWord, p⟩ :: ts : List Token).length := by
      rw [hts]
      simp only [List.length_cons, List.length_append]
      omega
    refine .ok trivial htwin ⟨by omega, ⟨.word .usingWord, p⟩ :: xs ++ [⟨.mark .semicolon, q⟩], ?_, ?_, ?_⟩
      (Nat.succ_le_succ (Nat.le_of_lt hshorter))
    · have htakes := Takes.all (⟨.word .usingWord, p⟩ :: xs ++ [⟨.mark .semicolon, q⟩]) vs
      rwa [List.append_assoc, List.cons_append, List.singleton_append, ← hts] at htakes
    · simp only [List.cons_append, List.mem_cons, List.mem_append, List.not_mem_nil, or_false]
      rintro t (rfl | ht | rfl)
      · exact nofun
      · exact heof t ht
      · exact nofun
    · intro hclosed
      have hxs : braceDepth d xs = some d := hdepth (usingClosed_left hclosed)
      refine .inr ?_
      show braceDepth d (xs ++ [⟨.mark .semicolon, q⟩]) = some d
      rw [braceDepth_append, hxs]
      rfl

/-! ## Statements -/

theorem tandem_outputItems (hfits : Fits 1 n m N M) :
    Tandem w Any 0 N M (.plain d) (.plain d) (outputItems n) (outputItems m) := by
  induction n generalizing m N M with
  | zero => exact absurd hfits.1 (by omega)
  | succ n ih =>
    cases m with
    | zero => exact absurd hfits.2 (by omega)
    | succ m =>
      unfold outputItems
      refine .accept (takeable rfl) (by simp) (fun p _ _ _ => ?_) (.pure trivial)
      exact (((tandemExpr w n m).binary 4 (by omega) (by omega)).mono (Nat.zero_le _)).bind fun e _ _ _ _ =>
        (ih (by omega)).bind fun es _ _ _ _ => .pure trivial

theorem tandem_output (pos : Pos) (hfits : Fits 1 n m N M) :
    Tandem w Stmt.Settled 0 N M (.plain d) (.plain d) (output n pos) (output m pos) := by
  refine (tandem_outputItems hfits).bind fun items _ _ _ _ => ?_
  have hclose {N M : Nat} : Tandem w Stmt.Settled 0 N M (.plain d) (.plain d)
      (expect .semicolon "after output statement" >>= fun _ => pure (.output items pos))
      (expect .semicolon "after output statement" >>= fun _ => pure (.output items pos)) :=
    (Tandem.expectMark _).bind fun _ _ _ _ _ => .pure trivial
  cases items with
  | nil =>
    have hfail {N M : Nat} : Tandem w Any 0 N M (.plain d) (.plain d)
        (throw .outputWithoutItems : Parser PUnit) (throw .outputWithoutItems) := .fail
    exact hfail.bind fun _ _ _ _ _ => hclose
  | cons e es => exact hclose

theorem tandem_forInit (hfits : Fits 13 n m N M) :
    Tandem w Any 1 N M (.plain d) (.plain d) (forInit n) (forInit m) := by
  refine .accept (takeable rfl) (by simp) (fun p _ _ _ => .pure trivial) (.get fun ts us htwin _ _ => ?_)
  rw [atType_twin htwin]
  split
  · exact (tandem_declaration hfits).bind fun v _ _ _ _ => .pure trivial
  · exact .peek plain_not_closing fun t => .of ((tandem_expr hfits).bind fun e _ _ _ _ =>
      ((Tandem.expectMark _).mono (Nat.zero_le _)).bind fun _ _ _ _ _ => .pure trivial)

theorem tandem_condition (place close : String) (hfits : Fits 13 n m N M) :
    Tandem w Any 1 N M (.plain d) (.plain d) (condition n place close) (condition m place close) :=
  (Tandem.expectMark place).bind fun _ _ _ _ _ => ((tandem_expr (by omega)).mono (Nat.zero_le _)).bind
    fun _ _ _ _ _ => ((Tandem.expectMark close).mono (Nat.zero_le _)).bind fun _ _ _ _ _ => .pure trivial

theorem tandem_exprStatement (pos : Pos) (hfits : Fits 13 n m N M) :
    Tandem w Stmt.Settled 1 N M (.plain d) (.plain d) (exprStatement n pos) (exprStatement m pos) :=
  (tandem_expr hfits).bind fun e _ _ _ _ => ((Tandem.expectMark _).mono (Nat.zero_le _)).bind
    fun _ _ _ _ _ => .pure trivial

/-- A statement that is read, or one that cannot be read and is skipped. -/
def nextStmt (lines : List String) (n : Nat) (ts : List Token) : Stmt × List Token :=
  match statement lines n ts with
  | .ok r => r
  | .error e => recover lines e ts

/-- The statements behind the next one, put behind it. -/
theorem statements_next (n : Nat) (ts : List Token) :
    (match nextStmt lines n ts with
      | (s, us) => match statements lines n us with
        | .ok (ss, vs) => Except.ok (s :: ss, vs)
        | .error e => .error e) =
      (statements lines n (nextStmt lines n ts).2).map fun r => ((nextStmt lines n ts).1 :: r.1, r.2) := by
  generalize nextStmt lines n ts = r
  dsimp only
  generalize statements lines n r.2 = rs
  cases rs <;> rfl

theorem statements_cons {t : Token} (ht : t.kind ≠ .eof) (hbrace : t.kind ≠ .mark .rbrace) (ts : List Token) :
    statements lines (n + 1) (t :: ts) =
      (statements lines n (nextStmt lines n (t :: ts)).2).map fun r => ((nextStmt lines n (t :: ts)).1 :: r.1, r.2) := by
  rw [statements.eq_def]
  obtain ⟨k, p⟩ := t
  cases k with
  | eof => exact absurd rfl ht
  | mark k =>
    cases k
    case rbrace => exact absurd rfl hbrace
    all_goals exact statements_next n _
  | _ => exact statements_next n _

theorem statements_stop {t : Token} (ht : t.kind = .eof ∨ t.kind = .mark .rbrace) (ts : List Token) :
    statements lines n (t :: ts) = .ok ([], t :: ts) := by
  cases n with
  | zero =>
    rw [statements.eq_def]
    rfl
  | succ n =>
    rw [statements.eq_def]
    dsimp only [next]
    rcases ht with ht | ht <;> rw [ht]

/-- All readers of statements, with `n` and `m` units of fuel. -/
structure TandemStmt (w : Tails) (lines : List String) (n m : Nat) : Prop where
  statement {N M d : Nat} (hfits : Fits 14 n m N M) :
    Tandem w Stmt.Settled 1 N M (.plain d) (.plain d) (statement lines n) (statement lines m)
  branch {N M d : Nat} (hfits : Fits 15 n m N M) :
    Tandem w Stmt.SettledAll 1 N M (.plain d) (.plain d) (branch lines n) (branch lines m)
  statements {N M d : Nat} (hfits : Fits 15 n m N M) :
    Tandem w Stmt.SettledAll 0 N M (.plain d) (.plain d) (statements lines n) (statements lines m)

namespace TandemStmt

variable (h : TandemStmt w lines n m)
include h

/-- The inside of braces, the first of which has been taken. -/
theorem block {β : Type} {W : β → Prop} {f : List Stmt → β} (hf : ∀ body, Stmt.SettledAll body → W (f body))
    (hfits : Fits 15 n m N M) :
    Tandem w W 0 N M (.plain (d + 1)) (.plain d)
      (Parser.statements lines n >>= fun body => expect .rbrace "after block" >>= fun _ => pure (f body))
      (Parser.statements lines m >>= fun body => expect .rbrace "after block" >>= fun _ => pure (f body)) := by
  have hclose : Takeable (.plain (d + 1)) (.plain d) (.mark .rbrace) := takeable_mark rfl
  exact (h.statements hfits).bind fun body hbody _ _ _ =>
    ((Tandem.expect _ hclose (by simp) plain_not_closing).mono (Nat.zero_le _)).bind
      fun _ _ _ _ _ => .pure (hf body hbody)

theorem branch_succ (hfits : Fits 15 (n + 1) (m + 1) N M) :
    Tandem w Stmt.SettledAll 1 N M (.plain d) (.plain d) (Parser.branch lines (n + 1))
      (Parser.branch lines (m + 1)) := by
  have hopen : Takeable (.plain d) (.plain (d + 1)) (.mark .lbrace) := takeable_mark rfl
  unfold Parser.branch
  refine .accept hopen (by simp) (fun p _ _ _ => h.block (fun _ => id) (by omega)) ?_
  exact (h.statement (by omega)).bind fun s hs _ _ _ => .pure ⟨hs, trivial⟩

/-- The next statement is read, or skipped, in tandem. -/
theorem next {t : Token} {ts us : List Token} (htwin : Twin w (.plain d) (t :: ts) (t :: us)) (ht : t.kind ≠ .eof)
    (hbrace : t.kind ≠ .mark .rbrace) (hfits : Fits 14 n m (t :: ts).length (t :: us).length) :
    Agreed w Stmt.Settled 1 (.plain d) (.plain d) (t :: ts) (t :: us) (.ok (nextStmt lines n (t :: ts)))
      (.ok (nextStmt lines m (t :: us))) := by
  unfold nextStmt
  generalize Parser.statement lines n (t :: ts) = r, Parser.statement lines m (t :: us) = r',
    h.statement hfits htwin (Nat.le_refl _) (Nat.le_refl _) = hagreed
  cases hagreed with
  | ok hs htwin' huses hshorter => exact .ok hs htwin' huses hshorter
  | error he => exact recover_agreed lines he ht hbrace htwin

theorem statements_succ (hfits : Fits 15 (n + 1) (m + 1) N M) :
    Tandem w Stmt.SettledAll 0 N M (.plain d) (.plain d) (Parser.statements lines (n + 1))
      (Parser.statements lines (m + 1)) := by
  intro ts us htwin hN hM
  obtain ⟨t, ts, us, rfl, rfl, -⟩ := htwin.head_eq plain_not_closing
  by_cases hstop : t.kind = .eof ∨ t.kind = .mark .rbrace
  · rw [statements_stop hstop, statements_stop hstop]
    exact .ok trivial htwin (.refl _ _) (Nat.le_refl _)
  · obtain ⟨ht, hbrace⟩ := not_or.mp hstop
    have hnext := h.next htwin ht hbrace (by omega)
    rw [statements_cons ht hbrace, statements_cons ht hbrace]
    generalize nextStmt lines n (t :: ts) = r, nextStmt lines m (t :: us) = r' at hnext
    cases hnext with
    | @ok s vs ws hs htwin' huses hshorter =>
      -- what is left has at least one token less
      have hlength := huses.shorter
      have hmore := h.statements (N := vs.length) (M := ws.length) (by omega) htwin' (Nat.le_refl _) (Nat.le_refl _)
      dsimp only
      generalize Parser.statements lines n vs = r, Parser.statements lines m ws = r' at hmore
      cases hmore with
      | ok hss htwin'' huses' hshorter' =>
        dsimp only [Except.map]
        exact .ok ⟨hs, hss⟩ htwin'' ((huses.trans huses').mono (Nat.zero_le _)) (by omega)
      | error he => exact .error he

theorem statement_succ (hfits : Fits 14 (n + 1) (m + 1) N M) :
    Tandem w Stmt.Settled 1 N M (.plain d) (.plain d) (Parser.statement lines (n + 1))
      (Parser.statement lines (m + 1)) := by
  unfold Parser.statement
  refine .peek plain_not_closing fun t => ?_
  obtain ⟨kind, p⟩ := t
  have hsemicolon {s : Surface.Stmt} (hs : s.Settled) (place : String) {N M : Nat} :
      Tandem w Stmt.Settled 0 N M (.plain d) (.plain d) (expect .semicolon place >>= fun _ => pure s)
        (expect .semicolon place >>= fun _ => pure s) :=
    ((Tandem.expectMark place).mono (Nat.zero_le _)).bind fun _ _ _ _ _ => .pure hs
  have hbranch {N' M' : Nat} (hleft : Left 1 N M N' M') :
      Tandem w Stmt.SettledAll 0 N' M' (.plain d) (.plain d) (Parser.branch lines n) (Parser.branch lines m) :=
    (h.branch (by omega)).mono (Nat.zero_le _)
  have hcondition (place close : String) {N' M' : Nat} (hleft : Left 1 N M N' M') :
      Tandem w Any 0 N' M' (.plain d) (.plain d) (condition n place close) (condition m place close) :=
    (tandem_condition place close (by omega)).mono (Nat.zero_le _)
  have hexpr : Tandem w Stmt.Settled 1 N M (.plain d) (.plain d) (exprStatement n p) (exprStatement m p) :=
    tandem_exprStatement p (by omega)
  have hdecl : Tandem w Stmt.Settled 1 N M (.plain d) (.plain d)
      (get >>= fun ts => if atFunction n ts then throw .nestedFunction else
        declaration n >>= fun d => pure (.decl d))
      (get >>= fun ts => if atFunction m ts then throw .nestedFunction else
        declaration m >>= fun d => pure (.decl d)) := by
    refine .get fun ts us htwin hN hM => ?_
    have hhead : atFunction m us = atFunction n ts := atFunction_tandem htwin (by omega)
    rw [hhead]
    split
    · exact .fail (by nofun)
    · exact (tandem_declaration (n := n) (m := m) (by omega)).bind fun v _ _ _ _ => .pure trivial
  cases kind with
  | name s =>
    dsimp only
    split
    all_goals first
      | contradiction
      | exact (takeable_plain (k := .name s)).advance fun _ _ _ => tandem_output p (by omega)
      | exact .of hexpr
  | mark k =>
    cases k
    case lbrace =>
      have hopen : Takeable (.plain d) (.plain (d + 1)) (.mark .lbrace) := takeable_mark rfl
      exact hopen.advance fun _ _ _ => h.block (f := fun body => Surface.Stmt.block body p) (fun _ hbody => hbody) (by omega)
    case semicolon => exact (takeable rfl).advance fun _ _ _ => .pure trivial
    all_goals exact .of hexpr
  | word k =>
    cases k
    case returnWord =>
      exact (takeable_word (by decide)).advance fun _ _ _ => (tandem_exprUnless .semicolon (by omega)).bind
        fun value _ _ _ _ => hsemicolon (s := .ret value p) trivial _
    case ifWord =>
      exact (takeable_word (by decide)).advance fun _ _ _ => (hcondition _ _ (by omega)).bind fun cond _ _ _ _ =>
        (hbranch (by omega)).bind fun yes hyes _ _ _ => .acceptWord (takeable_word (by decide))
          (fun _ _ _ _ => (hbranch (by omega)).bind fun no hno _ _ _ => .pure ⟨hyes, hno⟩) (.pure hyes)
    case whileWord =>
      exact (takeable_word (by decide)).advance fun _ _ _ => (hcondition _ _ (by omega)).bind fun cond _ _ _ _ =>
        (hbranch (by omega)).bind fun body hbody _ _ _ => .pure hbody
    case doWord =>
      exact (takeable_word (by decide)).advance fun _ _ _ => (hbranch (by omega)).bind fun body hbody _ _ _ =>
        ((Tandem.expectWord _ (takeable_word (by decide)) plain_not_closing).mono (Nat.zero_le _)).bind fun _ _ _ _ _ =>
          (hcondition _ _ (by omega)).bind fun cond _ _ _ _ => hsemicolon (s := .doWhile body cond p) hbody _
    case forWord =>
      exact (takeable_word (by decide)).advance fun _ _ _ => ((Tandem.expectMark _).mono (Nat.zero_le _)).bind fun _ _ _ _ _ =>
        ((tandem_forInit (by omega)).mono (Nat.zero_le _)).bind fun init _ _ _ _ =>
          (tandem_exprUnless .semicolon (by omega)).bind fun cond _ _ _ _ =>
            ((Tandem.expectMark _).mono (Nat.zero_le _)).bind fun _ _ _ _ _ =>
              (tandem_exprUnless .rparen (by omega)).bind fun update _ _ _ _ =>
                ((Tandem.expectMark _).mono (Nat.zero_le _)).bind fun _ _ _ _ _ =>
                  (hbranch (by omega)).bind fun body hbody _ _ _ => .pure hbody
    case breakWord =>
      exact (takeable_word (by decide)).advance fun _ _ _ => hsemicolon (s := .breakLoop p) trivial _
    case continueWord =>
      exact (takeable_word (by decide)).advance fun _ _ _ => hsemicolon (s := .continueLoop p) trivial _
    case usingWord => exact tandem_using p p
    all_goals first | exact .of hdecl | exact .of hexpr
  | _ => exact .of hexpr

end TandemStmt

/-- Statements are read in tandem. -/
theorem tandemStmt (w : Tails) (lines : List String) (n m : Nat) : TandemStmt w lines n m := by
  induction n generalizing m with
  | zero =>
    constructor <;> intros <;> next hfits => exact absurd hfits.1 (by omega)
  | succ n ih =>
    cases m with
    | zero =>
      constructor <;> intros <;> next hfits => exact absurd hfits.2 (by omega)
    | succ m => exact ⟨(ih m).statement_succ, (ih m).branch_succ, (ih m).statements_succ⟩

end Parser

end CallTrace.Surface
