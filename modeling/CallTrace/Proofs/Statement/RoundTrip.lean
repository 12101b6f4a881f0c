import CallTrace.Proofs.Statement.Reading

/-! # Reading a printed statement gives it back

* `Parser.StmtReadBack`, `Parser.BodyReadBack`: what is spelled is read as the statement or the body, up to places.
* `Parser.stmt_readBack`: every statement that has tokens is read back from them, by induction on the statement.
* `Parser.statement_tokens`: what reads a statement inverts the printer, and stops behind the statement.
-/

namespace CallTrace.Surface
set_option autoImplicit false

namespace Stmt

theorem ended_semicolon (ks : List Token.Kind) : Expr.Ended (ks ++ [.mark .semicolon]) := .concat ks nofun

theorem ended_braced (ks : List Token.Kind) : Expr.Ended (braced ks) :=
  (Expr.Ended.concat ks (k := .mark .rbrace) (by simp)).cons _

theorem ended_decl (d : VarDecl) : Expr.Ended d.tokens := ((ended_semicolon _).cons _).append _

/-- The last token of a statement is a semicolon or a brace. -/
theorem ended_tokens (s : Stmt) (h : s.Spelled) : Expr.Ended s.tokens := by
  cases s with
  | decl d => exact ended_decl d
  | expr e p => exact ended_semicolon _
  | output items p | ret value p => exact (ended_semicolon _).cons _
  | ifThen c yes p | whileLoop c body p => exact ((ended_braced _).append _).cons _
  | ifElse c yes no p => exact ((((ended_braced _).cons _).append _).append _).cons _
  | doWhile body c p => exact ((((ended_semicolon _).cons _).append _).cons _)
  | forLoop init c u body p =>
    exact (((((((ended_braced _).cons _).append _).cons _).append _).append _).cons _).cons _
  | block body p => exact ended_braced _
  | breakLoop p | continueLoop p => exact ⟨_, rfl, nofun⟩
  | usingDirective p | unsupported t r p => exact absurd h id

end Stmt

theorem ForInit.ended_tokens (i : ForInit) : Expr.Ended i.tokens := by
  cases i with
  | none => exact Stmt.ended_semicolon []
  | decl d => exact Stmt.ended_decl d
  | expr e p => exact Stmt.ended_semicolon _

namespace Parser

variable {ts : List Token}

/-! ## Clauses -/

theorem of_braced {ks : List Token.Kind} (h : Spells ts (braced ks)) :
    ∃ p us q, ts = ⟨.mark .lbrace, p⟩ :: (us ++ [⟨.mark .rbrace, q⟩]) ∧ Spells us ks := by
  obtain ⟨p, us, rfl, hus⟩ := h.of_cons (by simp)
  obtain ⟨vs, q, rfl, hvs⟩ := hus.of_concat (by simp)
  exact ⟨p, vs, q, rfl, hvs⟩

theorem of_braced_cons {k : Token.Kind} {ks ls : List Token.Kind} (h : Spells ts (braced ks ++ k :: ls))
    (hk : k ≠ .mark .gt) : ∃ p us q r vs, ts = ⟨.mark .lbrace, p⟩ :: (us ++ ⟨.mark .rbrace, q⟩ :: ⟨k, r⟩ :: vs) ∧
      Spells us ks ∧ Spells vs ls := by
  obtain ⟨bs, r, vs, rfl, hbs, hvs⟩ := h.of_append_cons hk
  obtain ⟨p, us, q, rfl, hus⟩ := of_braced hbs
  exact ⟨p, us, q, r, vs, by simp, hus, hvs⟩

theorem of_parenthesized {c : Expr} (hc : c.Spelled) {ks : List Token.Kind} (h : Spells ts (parenthesized c ++ ks)) :
    ∃ p cs q us c', ts = ⟨.mark .lparen, p⟩ :: (cs ++ ⟨.mark .rparen, q⟩ :: us) ∧ c'.erase = c.erase ∧
      Yields 0 cs c' ∧ Spells us ks := by
  rw [parenthesized, List.cons_append, List.append_assoc, List.singleton_append] at h
  obtain ⟨p, us, rfl, hus⟩ := h.of_cons (by simp)
  obtain ⟨cs, q, vs, rfl, hcs, hvs⟩ := hus.of_append_cons (by simp)
  obtain ⟨c', he, hy⟩ := (readBack c hc).free cs hcs
  exact ⟨p, cs, q, vs, c', rfl, he, hy, hvs⟩

theorem of_optionTokens {o : Option Expr} (ho : OptionSpelled o) (h : Spells ts (optionTokens o)) :
    ∃ o', o'.map Expr.erase = o.map Expr.erase ∧ YieldsOption ts o' := by
  cases o with
  | none => exact ⟨none, rfl, h.eq_nil⟩
  | some e =>
    obtain ⟨e', he, hy⟩ := (readBack e (ho e rfl)).free ts h
    exact ⟨some e', congrArg some he, hy⟩

theorem of_initTokens {o : Option Expr} (ho : OptionSpelled o) (h : Spells ts (initTokens o)) :
    ∃ o', o'.map Expr.erase = o.map Expr.erase ∧ YieldsInit ts o' := by
  cases o with
  | none => exact ⟨none, rfl, h.eq_nil⟩
  | some e =>
    obtain ⟨p, us, rfl, hus⟩ := h.of_cons (by simp)
    obtain ⟨e', he, hy⟩ := (readBack e (ho e rfl)).free us hus
    exact ⟨some e', congrArg some he, p, us, rfl, hy⟩

theorem of_operandTokens {es : List Expr} (hes : Expr.SpelledAll es) (h : Spells ts (operandTokens es)) :
    ∃ es', Expr.eraseAll es' = Expr.eraseAll es ∧ YieldsItems ts es' := by
  induction es generalizing ts with
  | nil => exact ⟨[], rfl, h.eq_nil ▸ .nil⟩
  | cons e es ih =>
    obtain ⟨p, us, rfl, hus⟩ := h.of_cons nofun
    obtain ⟨q, cs, r, vs, e', rfl, he, hy, hvs⟩ := of_parenthesized hes.1 hus
    obtain ⟨es', hes', hmore⟩ := ih hes.2 hvs
    refine ⟨e' :: es', by rw [Expr.eraseAll, Expr.eraseAll, he, hes'], ?_⟩
    have hitem := YieldsItems.cons p (hy.parens q r) hmore
    simpa using hitem

theorem of_declTokens {d : VarDecl} (hd : OptionSpelled d.init) (h : Spells ts d.tokens) :
    ∃ d', d'.erase = d.erase ∧ ReadsDecl ts d' := by
  obtain ⟨as, p, us, rfl, has, hus⟩ := h.of_append_cons nofun
  obtain ⟨is, q, rfl, his⟩ := hus.of_concat nofun
  obtain ⟨o', ho, hinit⟩ := of_initTokens hd his
  exact ⟨⟨d.name, d.ty, o', p⟩, by simp only [VarDecl.erase, ho], .of_ty has hinit d.name p q⟩

/-- An expression and a semicolon, with the first token of the expression. -/
theorem of_exprTokens {e : Expr} (he : e.Spelled) (h : Spells ts (e.tokens ++ [.mark .semicolon])) :
    ∃ e' k p us q, ts = ⟨k, p⟩ :: (us ++ [⟨.mark .semicolon, q⟩]) ∧ k ∈ e.tokens.head? ∧ e'.erase = e.erase ∧
      Yields 0 (⟨k, p⟩ :: us) e' := by
  obtain ⟨as, q, rfl, has⟩ := h.of_concat nofun
  obtain ⟨e', hee, hy⟩ := (readBack e he).free as has
  obtain ⟨k, ks, hks, hk⟩ := e.begun_tokens
  rw [hks] at has ⊢
  obtain ⟨p, us, rfl, -⟩ := has.of_cons hk
  exact ⟨e', k, p, us, q, rfl, rfl, hee, hy⟩

theorem of_forInitTokens {i : ForInit} (hi : i.Spelled) (h : Spells ts i.tokens) :
    ∃ i', i'.erase = i.erase ∧ YieldsForInit ts i' := by
  cases i with
  | none =>
    obtain ⟨p, us, rfl, hus⟩ := h.of_cons nofun
    obtain rfl := hus.eq_nil
    exact ⟨.none, rfl, p, rfl⟩
  | decl d =>
    obtain ⟨d', hd, hread⟩ := of_declTokens hi h
    exact ⟨.decl d', congrArg ForInit.decl hd, hread⟩
  | expr e p =>
    obtain ⟨he, hhead⟩ := hi
    obtain ⟨e', k, q, us, r, rfl, hk, hee, hy⟩ := of_exprTokens he h
    exact ⟨.expr e' q, by simp only [ForInit.erase, hee], k, us, r, rfl, hhead k hk, hy⟩

/-! ## Statements -/

/-- What is spelled by the tokens of a statement is read as it, up to places. -/
def StmtReadBack (s : Stmt) : Prop :=
  ∀ ts : List Token, Spells ts s.tokens → ∃ s', s'.erase = s.erase ∧ ReadsStmt ts s'

/-- What is spelled by the tokens of a body is read as it, up to places. -/
def BodyReadBack (ss : List Stmt) : Prop :=
  ∀ ts : List Token, Spells ts (Stmt.tokensAll ss) → ∃ ss', Stmt.eraseAll ss' = Stmt.eraseAll ss ∧ ReadsBody ts ss'

mutual

theorem stmt_readBack : (s : Stmt) → s.Spelled → StmtReadBack s
  | .decl d, h => by
    intro ts hts
    obtain ⟨d', hd, hread⟩ := of_declTokens h hts
    exact ⟨.decl d', congrArg Stmt.decl hd, .decl hread⟩
  | .expr e _, h => by
    intro ts hts
    obtain ⟨he, hhead⟩ := h
    obtain ⟨e', k, p, us, q, rfl, hk, hee, hy⟩ := of_exprTokens he hts
    exact ⟨.expr e' p, by simp only [Stmt.erase, hee], .expr hy (hhead k hk) q⟩
  | .output items _, h => by
    intro ts hts
    obtain ⟨hne, hitems⟩ := h
    obtain ⟨p, us, rfl, hus⟩ := hts.of_cons nofun
    obtain ⟨is, q, rfl, his⟩ := hus.of_concat nofun
    obtain ⟨items', he, hy⟩ := of_operandTokens hitems his
    have hne' : items' ≠ [] := by
      rintro rfl
      cases items with
      | nil => exact hne rfl
      | cons e es => cases he
    exact ⟨.output items' p, by simp only [Stmt.erase, he], .output hy hne' p q⟩
  | .ret value _, h => by
    intro ts hts
    obtain ⟨p, us, rfl, hus⟩ := hts.of_cons nofun
    obtain ⟨vs, q, rfl, hvs⟩ := hus.of_concat nofun
    obtain ⟨o', ho, hy⟩ := of_optionTokens h hvs
    exact ⟨.ret o' p, by simp only [Stmt.erase, ho], .ret hy p q⟩
  | .ifThen c yes _, h => by
    intro ts hts
    obtain ⟨hc, hyes⟩ := h
    obtain ⟨p, us, rfl, hus⟩ := hts.of_cons nofun
    obtain ⟨q, cs, r, vs, c', rfl, hec, hyc, hvs⟩ := of_parenthesized hc hus
    obtain ⟨u, bs, v, rfl, hbs⟩ := of_braced hvs
    obtain ⟨yes', heb, hyb⟩ := body_readBack yes hyes bs hbs
    exact ⟨.ifThen c' yes' p, by simp only [Stmt.erase, hec, heb], .ifThen hyc hyb p q r u v⟩
  | .ifElse c yes no _, h => by
    intro ts hts
    obtain ⟨hc, hyes, hno⟩ := h
    obtain ⟨p, us, rfl, hus⟩ := hts.of_cons nofun
    obtain ⟨q, cs, r, vs, c', rfl, hec, hyc, hvs⟩ := of_parenthesized hc hus
    obtain ⟨u, bs, v, w, ws, rfl, hbs, hws⟩ := of_braced_cons hvs nofun
    obtain ⟨x, ds, y, rfl, hds⟩ := of_braced hws
    obtain ⟨yes', hey, hyy⟩ := body_readBack yes hyes bs hbs
    obtain ⟨no', hen, hyn⟩ := body_readBack no hno ds hds
    exact ⟨.ifElse c' yes' no' p, by simp only [Stmt.erase, hec, hey, hen], .ifElse hyc hyy hyn p q r u v w x y⟩
  | .whileLoop c body _, h => by
    intro ts hts
    obtain ⟨hc, hbody⟩ := h
    obtain ⟨p, us, rfl, hus⟩ := hts.of_cons nofun
    obtain ⟨q, cs, r, vs, c', rfl, hec, hyc, hvs⟩ := of_parenthesized hc hus
    obtain ⟨u, bs, v, rfl, hbs⟩ := of_braced hvs
    obtain ⟨body', heb, hyb⟩ := body_readBack body hbody bs hbs
    exact ⟨.whileLoop c' body' p, by simp only [Stmt.erase, hec, heb], .whileLoop hyc hyb p q r u v⟩
  | .doWhile body c _, h => by
    intro ts hts
    obtain ⟨hc, hbody⟩ := h
    obtain ⟨p, us, rfl, hus⟩ := hts.of_cons nofun
    obtain ⟨q, bs, r, u, vs, rfl, hbs, hvs⟩ := of_braced_cons hus nofun
    obtain ⟨v, cs, w, ws, c', rfl, hec, hyc, hws⟩ := of_parenthesized hc hvs
    obtain ⟨x, xs, rfl, hxs⟩ := hws.of_cons nofun
    obtain rfl := hxs.eq_nil
    obtain ⟨body', heb, hyb⟩ := body_readBack body hbody bs hbs
    exact ⟨.doWhile body' c' p, by simp only [Stmt.erase, hec, heb], .doWhile hyb hyc p q r u v w x⟩
  | .forLoop init cond update body _, h => by
    intro ts hts
    obtain ⟨hinit, hcond, hupdate, hbody⟩ := h
    obtain ⟨p, us, rfl, hus⟩ := hts.of_cons nofun
    obtain ⟨q, vs, rfl, hvs⟩ := hus.of_cons nofun
    obtain ⟨is, ws, rfl, his, hws⟩ := hvs.of_append (init.ended_tokens.apart _)
    obtain ⟨cs, r, xs, rfl, hcs, hxs⟩ := hws.of_append_cons nofun
    obtain ⟨ds, u, ys, rfl, hds, hys⟩ := hxs.of_append_cons nofun
    obtain ⟨v, bs, w, rfl, hbs⟩ := of_braced hys
    obtain ⟨init', hei, hyi⟩ := of_forInitTokens hinit his
    obtain ⟨cond', hec, hyc⟩ := of_optionTokens hcond hcs
    obtain ⟨update', heu, hyu⟩ := of_optionTokens hupdate hds
    obtain ⟨body', heb, hyb⟩ := body_readBack body hbody bs hbs
    exact ⟨.forLoop init' cond' update' body' p, by simp only [Stmt.erase, hei, hec, heu, heb],
      .forLoop hyi hyc hyu hyb p q r u v w⟩
  | .block body _, h => by
    intro ts hts
    obtain ⟨p, bs, q, rfl, hbs⟩ := of_braced hts
    obtain ⟨body', heb, hyb⟩ := body_readBack body h bs hbs
    exact ⟨.block body' p, by simp only [Stmt.erase, heb], .block hyb p q⟩
  | .breakLoop _, _ => by
    intro ts hts
    obtain ⟨p, us, rfl, hus⟩ := hts.of_cons nofun
    obtain ⟨q, vs, rfl, hvs⟩ := hus.of_cons nofun
    obtain rfl := hvs.eq_nil
    exact ⟨.breakLoop p, rfl, .breakLoop p q⟩
  | .continueLoop _, _ => by
    intro ts hts
    obtain ⟨p, us, rfl, hus⟩ := hts.of_cons nofun
    obtain ⟨q, vs, rfl, hvs⟩ := hus.of_cons nofun
    obtain rfl := hvs.eq_nil
    exact ⟨.continueLoop p, rfl, .continueLoop p q⟩

theorem body_readBack : (ss : List Stmt) → Stmt.SpelledAll ss → BodyReadBack ss
  | [], _ => by
    intro ts hts
    obtain rfl := hts.eq_nil
    exact ⟨[], rfl, .nil⟩
  | s :: ss, h => by
    intro ts hts
    obtain ⟨as, bs, rfl, has, hbs⟩ := hts.of_append ((s.ended_tokens h.1).apart _)
    obtain ⟨s', hes, hs⟩ := stmt_readBack s h.1 as has
    obtain ⟨ss', hess, hss⟩ := body_readBack ss h.2 bs hbs
    exact ⟨s' :: ss', by rw [Stmt.eraseAll, Stmt.eraseAll, hes, hess], .cons hs hss⟩

end

/-- Tokens that a statement is spelled by, before tokens that do not start with `else`, are read as the statement
up to places, and reading stops before those tokens. -/
theorem statement_tokens {s : Stmt} (hs : s.Spelled) {ts : List Token} (hts : Spells ts s.tokens)
    (lines : List String) {after : List Token} (hafter : ∀ t ∈ after.head?, t.kind ≠ .word .elseWord)
    {n : Nat} (hn : 16 * ts.length ≤ n) :
    ∃ s', s'.erase = s.erase ∧ statement lines n (ts ++ after) = .ok (s', after) := by
  obtain ⟨s', he, hread⟩ := stmt_readBack s hs ts hts
  exact ⟨s', he, hread.read_eq lines after n hafter hn⟩

/-- The statement `if (a) { const vector<vector<int>> v = {}; } else { for (;;) { break; } }` before a closing brace,
with `>>` at the end of the type. -/
theorem statement_tokens_ifElse :
    let rows : Ty := .vector (.vector (.scalar .int false false) false false) true false
    let s : Stmt := .ifElse (.var "a" .start) [.decl ⟨"v", rows, some (.list [] .start), .start⟩]
      [.forLoop .none none none [.breakLoop .start] .start] .start
    let token (k : Token.Kind) : Token := ⟨k, .start⟩
    let head := [.word .ifWord, .mark .lparen, .name "a", .mark .rparen, .mark .lbrace, .word .const, .word .vector,
      .mark .lt, .word .vector, .mark .lt, .word .int].map token
    let tail := [.name "v", .mark .eq, .mark .lbrace, .mark .rbrace, .mark .semicolon, .mark .rbrace,
      .word .elseWord, .mark .lbrace, .word .forWord, .mark .lparen, .mark .semicolon, .mark .semicolon,
      .mark .rparen, .mark .lbrace, .word .breakWord, .mark .semicolon, .mark .rbrace, .mark .rbrace].map token
    let ts := head ++ token (.mark .gtGt) :: tail
    let after := [token (.mark .rbrace)]
    s.Spelled ∧ Spells ts s.tokens ∧ (∀ t ∈ after.head?, t.kind ≠ .word .elseWord) ∧ 16 * ts.length ≤ 480 ∧
      ∃ s', s'.erase = s.erase ∧ statement [] 480 (ts ++ after) = .ok (s', after) := by
  intro rows s token head tail ts after
  have hs : s.Spelled := by
    refine ⟨trivial, ⟨fun e he => ?_, trivial⟩, ⟨trivial, nofun, nofun, trivial, trivial⟩, trivial⟩
    obtain rfl := Option.some.inj he
    trivial
  have hts : Spells ts s.tokens :=
    ⟨head ++ ⟨.mark .gt, .start⟩ :: ⟨.mark .gt, Pos.start.right 1⟩ :: tail,
      (Splits.refl head).append (.split .start (.refl tail)), rfl⟩
  have hafter : ∀ t ∈ after.head?, t.kind ≠ .word .elseWord := by
    intro t ht
    obtain rfl := Option.some.inj ht
    nofun
  exact ⟨hs, hts, hafter, by decide, statement_tokens hs hts [] hafter (by decide)⟩

end Parser

end CallTrace.Surface
