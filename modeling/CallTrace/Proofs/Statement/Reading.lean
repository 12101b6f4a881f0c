import CallTrace.Proofs.Statement.Printer
import CallTrace.Surface.Parser.Statement

/-! # What the readers of statements read

* `Parser.ReadsStmt ts s`: the tokens `ts` are read as the statement `s`, whatever comes after them, unless
  that is `else`.
* `Parser.ReadsBody ts ss`: the tokens `ts` before a closing brace are read as the statements `ss`.
* One lemma for each clause of a statement, and one for each kind of statement. The fuel is 16 for each token.
-/

namespace CallTrace.Surface
set_option autoImplicit false

namespace Parser

/-- The tokens do not start with `else`. -/
def NoElse (ts : List Token) : Prop := ∀ t ∈ ts.head?, t.kind ≠ .word .elseWord

/-- The tokens `ts` are the statement `s`. -/
structure ReadsStmt (ts : List Token) (s : Stmt) : Prop where
  starts : ∃ t us, ts = t :: us ∧ t.kind ≠ .mark .rbrace ∧ t.kind ≠ .eof ∧ t.kind ≠ .word .elseWord
  read_eq : ∀ lines after n, NoElse after → 16 * ts.length ≤ n →
    statement lines n (ts ++ after) = .ok (s, after)

/-- The tokens `ts` are the statements `ss` inside of braces. -/
structure ReadsBody (ts : List Token) (ss : List Stmt) : Prop where
  noElse : NoElse ts
  read_eq : ∀ lines p after n, 16 * ts.length < n →
    statements lines n (ts ++ ⟨.mark .rbrace, p⟩ :: after) = .ok (ss, ⟨.mark .rbrace, p⟩ :: after)

variable {ts us cs : List Token} {e c : Expr} {s : Stmt} {yes no body : List Stmt} {n : Nat}

/-! ## Bodies -/

theorem ReadsBody.nil : ReadsBody [] [] := by
  refine ⟨nofun, fun lines p after n hn => ?_⟩
  obtain ⟨n, rfl⟩ : ∃ m, n = m + 1 := ⟨n - 1, by omega⟩
  rfl

/-- Before a token that ends no body, one more statement is read. -/
theorem statements_of_statement {lines : List String} {t : Token} {vs : List Token} {r : List Stmt × List Token}
    (hbrace : t.kind ≠ .mark .rbrace) (heof : t.kind ≠ .eof)
    (hs : statement lines n (t :: ts) = .ok (s, vs)) (hss : statements lines n vs = .ok r) :
    statements lines (n + 1) (t :: ts) = .ok (s :: r.1, r.2) := by
  obtain ⟨k, p⟩ := t
  unfold statements
  dsimp only [next]
  rw [hs]
  dsimp only
  rw [hss]
  cases k with
  | eof => exact absurd rfl heof
  | mark m =>
    cases m
    case rbrace => exact absurd rfl hbrace
    all_goals rfl
  | _ => rfl

theorem ReadsBody.cons (h : ReadsStmt ts s) (hbody : ReadsBody us body) : ReadsBody (ts ++ us) (s :: body) := by
  obtain ⟨t, ws, rfl, hbrace, heof, helse⟩ := h.starts
  refine ⟨fun u hu => Option.some.inj hu ▸ helse, fun lines p after n hn => ?_⟩
  rw [List.length_append] at hn
  obtain ⟨n, rfl⟩ : ∃ m, n = m + 1 := ⟨n - 1, by omega⟩
  have hafter : NoElse (us ++ ⟨.mark .rbrace, p⟩ :: after) := by
    intro u hu
    cases us with
    | nil => exact Option.some.inj hu ▸ nofun
    | cons v us => exact hbody.noElse u hu
  have hlen : 0 < (t :: ws).length := Nat.succ_pos _
  rw [List.append_assoc]
  exact statements_of_statement hbrace heof (h.read_eq lines _ n hafter (by omega))
    (hbody.read_eq lines p after n (by omega))

/-- A body in braces. -/
theorem ReadsBody.branch_eq (h : ReadsBody ts body) (lines : List String) (p q : Pos) (after : List Token)
    (hn : 16 * ts.length + 1 < n) :
    branch lines n (⟨.mark .lbrace, p⟩ :: (ts ++ ⟨.mark .rbrace, q⟩ :: after)) = .ok (body, after) := by
  obtain ⟨n, rfl⟩ : ∃ m, n = m + 1 := ⟨n - 1, by omega⟩
  rw [branch, bind_eq (accept_eq ..)]
  dsimp only
  rw [bind_eq (h.read_eq lines q after n (by omega)), bind_eq (expect_eq ..)]
  rfl

/-! ## Clauses -/

theorem condition_eq (h : Yields 0 cs c) (place close : String) (p q : Pos) (after : List Token)
    (hn : 16 * cs.length ≤ n) :
    condition n place close (⟨.mark .lparen, p⟩ :: (cs ++ ⟨.mark .rparen, q⟩ :: after)) = .ok (c, after) := by
  rw [condition, bind_eq (expect_eq ..), bind_eq (h.read_eq _ (.of_none rfl q after) n hn), bind_eq (expect_eq ..)]
  rfl

theorem at?_self (m : Mark) (p : Pos) (ts : List Token) :
    at? m (⟨.mark m, p⟩ :: ts) = .ok (true, ⟨.mark m, p⟩ :: ts) := by
  simp only [at?, beq_self_eq_true]

/-- The tokens `ts` are an expression that may be missing. -/
def YieldsOption (ts : List Token) : Option Expr → Prop
  | none => ts = []
  | some e => Yields 0 ts e

theorem exprUnless_eq {o : Option Expr} (h : YieldsOption ts o) {m : Mark} (hm : startsExpr (.mark m) = false)
    (hc : continues? (.mark m) = none) (p : Pos) (after : List Token) (hn : 16 * ts.length ≤ n) :
    exprUnless m n (ts ++ ⟨.mark m, p⟩ :: after) = .ok (o, ⟨.mark m, p⟩ :: after) := by
  cases o with
  | none =>
    obtain rfl : ts = [] := h
    rw [exprUnless, List.nil_append, bind_eq (at?_self m p after)]
    rfl
  | some e =>
    have hy : Yields 0 ts e := h
    rw [exprUnless, bind_eq (at?_eq (hy.starts.append _) hm), if_neg (by decide),
      bind_eq (hy.read_eq _ (.of_none hc p after) n hn)]
    rfl

/-- The tokens `ts` are what a variable starts with, behind its mark. -/
def YieldsInit (ts : List Token) : Option Expr → Prop
  | none => ts = []
  | some e => ∃ p us, ts = ⟨.mark .eq, p⟩ :: us ∧ Yields 0 us e

theorem initializer_eq {o : Option Expr} (h : YieldsInit ts o) (t : Ty) (p : Pos) (after : List Token)
    (hn : 16 * ts.length ≤ n) :
    initializer n t (ts ++ ⟨.mark .semicolon, p⟩ :: after) = .ok (o, ⟨.mark .semicolon, p⟩ :: after) := by
  cases o with
  | none =>
    obtain rfl : ts = [] := h
    rfl
  | some e =>
    obtain ⟨q, us, rfl, hy⟩ := h
    rw [List.length_cons] at hn
    rw [List.cons_append, initializer, bind_eq (accept_eq ..)]
    dsimp only
    rw [bind_eq (hy.read_eq _ (.of_none rfl p after) n (by omega))]
    rfl

/-- What stands between the name of a declared variable and its semicolon does not go on as a head of a
function does, nor as an array does. -/
theorem YieldsInit.accept_none {o : Option Expr} (h : YieldsInit ts o) {m : Mark} (heq : m ≠ .eq)
    (hsemi : m ≠ .semicolon) (p : Pos) (after : List Token) :
    accept m (ts ++ ⟨.mark .semicolon, p⟩ :: after) = .ok (none, ts ++ ⟨.mark .semicolon, p⟩ :: after) := by
  refine accept_none_of_head fun t ht => ?_
  cases o with
  | none =>
    obtain rfl : ts = [] := h
    obtain rfl := Option.some.inj ht
    exact fun hk => hsemi (Token.Kind.mark.inj hk).symm
  | some e =>
    obtain ⟨q, us, rfl, -⟩ := h
    obtain rfl := Option.some.inj ht
    exact fun hk => heq (Token.Kind.mark.inj hk).symm

/-- The tokens `ts` are the declaration `d` with its semicolon. -/
structure ReadsDecl (ts : List Token) (d : VarDecl) : Prop where
  starts : ∃ k p us, ts = ⟨.word k, p⟩ :: us ∧ k.startsType
  declaration_eq : ∀ after n, 16 * ts.length ≤ n + 16 → declaration n (ts ++ after) = .ok (d, after)
  atFunction_eq : ∀ after n, 16 * ts.length ≤ n + 16 → atFunction n (ts ++ after) = false

theorem ReadsDecl.of_ty {t : Ty} {o : Option Expr} (hty : Spells ts t.print) (hinit : YieldsInit us o)
    (name : String) (p q : Pos) :
    ReadsDecl (ts ++ ⟨.name name, p⟩ :: (us ++ [⟨.mark .semicolon, q⟩])) ⟨name, t, o, p⟩ := by
  have hassoc (after : List Token) : ts ++ ⟨.name name, p⟩ :: (us ++ [⟨.mark .semicolon, q⟩]) ++ after =
      ts ++ ⟨.name name, p⟩ :: (us ++ ⟨.mark .semicolon, q⟩ :: after) := by simp
  have hends (rest : List Token) : EndsType (⟨.name name, p⟩ :: rest) :=
    .of_cons (k := .name name) ⟨nofun, nofun, nofun, nofun⟩ p rest
  refine ⟨?_, fun after n hn => ?_, fun after n hn => ?_⟩
  · obtain ⟨k, ks, hprint, hk⟩ := t.print_head
    rw [hprint] at hty
    obtain ⟨r, vs, rfl, -⟩ := hty.of_cons nofun
    exact ⟨k, r, _, rfl, hk⟩
  all_goals simp only [List.length_append, List.length_cons, List.length_nil] at hn
  all_goals have hread := ty_eq hty (hends (us ++ ⟨.mark .semicolon, q⟩ :: after)) (n := n) (by omega)
  · have hnone := hinit.accept_none (m := .lbracket) nofun nofun q after
    rw [hassoc, declaration, bind_eq hread, bind_eq (p := expectName) rfl]
    dsimp only
    rw [bind_eq hnone]
    dsimp only
    rw [bind_eq (initializer_eq hinit t q after (by omega))]
    rw [bind_eq (p := pure _) rfl, bind_eq (expect_eq ..)]
    rfl
  · have hparen : expect .lparen "" (us ++ ⟨.mark .semicolon, q⟩ :: after) =
        .error (.missingMark .lparen "" (next (us ++ ⟨.mark .semicolon, q⟩ :: after)).kind) := by
      have hnone := hinit.accept_none (m := .lparen) nofun nofun q after
      rw [expect, bind_eq hnone]
      rfl
    rw [hassoc]
    unfold atFunction
    dsimp only [StateT.run]
    rw [bind_eq hread, bind_eq (p := expectName) rfl, bind_error hparen]

/-- The tokens `ts` are the first clause of a `for` statement with its semicolon. -/
def YieldsForInit (ts : List Token) : ForInit → Prop
  | .none => ∃ p, ts = [⟨.mark .semicolon, p⟩]
  | .decl d => ReadsDecl ts d
  | .expr e pos => ∃ k us p, ts = ⟨k, pos⟩ :: (us ++ [⟨.mark .semicolon, p⟩]) ∧ opensType k = false ∧
      Yields 0 (⟨k, pos⟩ :: us) e

theorem atType_cons (k : Token.Kind) (p : Pos) (ts : List Token) : atType (⟨k, p⟩ :: ts) = opensType k := by
  cases k <;> rfl

/-- No type and no expression starts with a semicolon. -/
theorem accept_semicolon_none {k : Token.Kind} (hk : k ≠ .mark .semicolon) (p : Pos) (ts : List Token) :
    accept .semicolon (⟨k, p⟩ :: ts) = .ok (none, ⟨k, p⟩ :: ts) :=
  accept_none_of_head fun _ ht => Option.some.inj ht ▸ hk

theorem forInit_eq {i : ForInit} (h : YieldsForInit ts i) (after : List Token) (hn : 16 * ts.length ≤ n) :
    forInit n (ts ++ after) = .ok (i, after) := by
  cases i with
  | none =>
    obtain ⟨p, rfl⟩ := h
    rw [forInit, List.singleton_append, bind_eq (accept_eq ..)]
    rfl
  | decl d =>
    have hd : ReadsDecl ts d := h
    have hread := hd.declaration_eq after n (by omega)
    obtain ⟨k, p, us, rfl, hk⟩ := hd.starts
    have hopens : opensType (.word k) := hk
    rw [List.cons_append] at hread ⊢
    rw [forInit, bind_eq (accept_semicolon_none (k := .word k) nofun p _)]
    dsimp only
    rw [bind_eq (p := get) rfl, atType_cons, if_pos hopens, bind_eq hread]
    rfl
  | expr e pos =>
    obtain ⟨k, us, p, rfl, hk, hy⟩ := h
    simp only [List.length_cons, List.length_append, List.length_nil] at hn
    have hread := hy.read_eq (⟨.mark .semicolon, p⟩ :: after) (.of_none rfl p after) n
      (by rw [List.length_cons]; omega)
    have hne : k ≠ .mark .semicolon := by
      rintro rfl
      obtain ⟨t, vs, hts, ht⟩ := hy.starts
      obtain ⟨rfl, -⟩ := List.cons.inj hts
      cases ht
    rw [List.cons_append] at hread
    rw [List.cons_append, List.append_assoc, List.singleton_append, forInit, bind_eq (accept_semicolon_none hne pos _)]
    dsimp only
    rw [bind_eq (p := get) rfl, atType_cons, hk, if_neg (by decide), bind_eq (p := peek) rfl, bind_eq hread,
      bind_eq (expect_eq ..)]
    rfl

/-- The tokens `ts` are the operands of an output statement, each behind its mark. -/
inductive YieldsItems : List Token → List Expr → Prop where
  | nil : YieldsItems [] []
  | cons {ts us : List Token} {e : Expr} {es : List Expr} (p : Pos) (h : Yields 9 ts e) (hmore : YieldsItems us es) :
      YieldsItems (⟨.mark .ltLt, p⟩ :: (ts ++ us)) (e :: es)

theorem outputItems_eq {es : List Expr} (h : YieldsItems ts es) (p : Pos) (after : List Token)
    (hn : 16 * ts.length < n) :
    outputItems n (ts ++ ⟨.mark .semicolon, p⟩ :: after) = .ok (es, ⟨.mark .semicolon, p⟩ :: after) := by
  induction h generalizing n with
  | nil =>
    obtain ⟨n, rfl⟩ : ∃ m, n = m + 1 := ⟨n - 1, by omega⟩
    rfl
  | @cons ts us e es q h hmore ih =>
    rw [List.length_cons, List.length_append] at hn
    obtain ⟨n, rfl⟩ : ∃ m, n = m + 1 := ⟨n - 1, by omega⟩
    have hy : ReadsBinary 4 ts e := h.loosen (l := 9) (j := 6) (by decide) (by decide)
    have hfollows : Follows 6 (us ++ ⟨.mark .semicolon, p⟩ :: after) := by
      cases hmore with
      | nil => exact .of_none rfl p after
      | cons r h hmore => exact .of_none rfl r _
    rw [List.cons_append, List.append_assoc, outputItems, bind_eq (accept_eq ..)]
    dsimp only
    rw [bind_eq (hy.reads.read_eq _ hfollows n (by omega)), bind_eq (ih (by omega))]
    rfl

/-! ## One kind of statement after another -/

/-- A statement that starts with a word other than `else`. -/
theorem ReadsStmt.of_word {w : Keyword} (hw : w ≠ .elseWord) (p : Pos)
    (h : ∀ lines after n, NoElse after → 16 * ts.length + 16 ≤ n + 1 →
      statement lines (n + 1) (⟨.word w, p⟩ :: (ts ++ after)) = .ok (s, after)) :
    ReadsStmt (⟨.word w, p⟩ :: ts) s := by
  refine ⟨⟨_, _, rfl, nofun, nofun, fun hk => hw (Token.Kind.word.inj hk)⟩, fun lines after n hafter hn => ?_⟩
  rw [List.length_cons] at hn
  obtain ⟨n, rfl⟩ : ∃ m, n = m + 1 := ⟨n - 1, by omega⟩
  exact h lines after n hafter (by omega)

theorem ReadsStmt.ret {o : Option Expr} (h : YieldsOption ts o) (p q : Pos) :
    ReadsStmt (⟨.word .returnWord, p⟩ :: (ts ++ [⟨.mark .semicolon, q⟩])) (.ret o p) := by
  refine .of_word (by decide) p fun lines after n _ hn => ?_
  simp only [List.length_append, List.length_cons, List.length_nil] at hn
  have hvalue := exprUnless_eq h (m := .semicolon) rfl rfl q after (n := n) (by omega)
  rw [List.append_assoc, List.singleton_append, statement, bind_eq (p := peek) rfl]
  dsimp only [next]
  rw [bind_eq (p := advance) rfl]
  dsimp only [Parser.rest]
  rw [bind_eq hvalue, bind_eq (expect_eq ..)]
  rfl

theorem ReadsStmt.breakLoop (p q : Pos) :
    ReadsStmt [⟨.word .breakWord, p⟩, ⟨.mark .semicolon, q⟩] (.breakLoop p) :=
  .of_word (by decide) p fun _ _ _ _ _ => rfl

theorem ReadsStmt.continueLoop (p q : Pos) :
    ReadsStmt [⟨.word .continueWord, p⟩, ⟨.mark .semicolon, q⟩] (.continueLoop p) :=
  .of_word (by decide) p fun _ _ _ _ _ => rfl

theorem ReadsStmt.whileLoop (hc : Yields 0 cs c) (hb : ReadsBody ts body) (p q r u v : Pos) :
    ReadsStmt (⟨.word .whileWord, p⟩ :: ⟨.mark .lparen, q⟩ :: (cs ++ ⟨.mark .rparen, r⟩ :: ⟨.mark .lbrace, u⟩ ::
      (ts ++ [⟨.mark .rbrace, v⟩]))) (.whileLoop c body p) := by
  refine .of_word (by decide) p fun lines after n _ hn => ?_
  simp only [List.length_append, List.length_cons, List.length_nil] at hn
  simp only [List.append_assoc, List.cons_append, List.nil_append]
  rw [statement, bind_eq (p := peek) rfl]
  dsimp only [next]
  rw [bind_eq (p := advance) rfl]
  dsimp only [Parser.rest]
  rw [bind_eq (condition_eq hc _ _ q r _ (by omega)), bind_eq (hb.branch_eq lines u v after (by omega))]
  rfl

theorem ReadsStmt.ifThen (hc : Yields 0 cs c) (hb : ReadsBody ts yes) (p q r u v : Pos) :
    ReadsStmt (⟨.word .ifWord, p⟩ :: ⟨.mark .lparen, q⟩ :: (cs ++ ⟨.mark .rparen, r⟩ :: ⟨.mark .lbrace, u⟩ ::
      (ts ++ [⟨.mark .rbrace, v⟩]))) (.ifThen c yes p) := by
  refine .of_word (by decide) p fun lines after n hafter hn => ?_
  simp only [List.length_append, List.length_cons, List.length_nil] at hn
  simp only [List.append_assoc, List.cons_append, List.nil_append]
  rw [statement, bind_eq (p := peek) rfl]
  dsimp only [next]
  rw [bind_eq (p := advance) rfl]
  dsimp only [Parser.rest]
  rw [bind_eq (condition_eq hc _ _ q r _ (by omega)), bind_eq (hb.branch_eq lines u v after (by omega)),
    bind_eq (acceptWord_none hafter)]
  rfl

theorem ReadsStmt.ifElse (hc : Yields 0 cs c) (hyes : ReadsBody ts yes) (hno : ReadsBody us no)
    (p q r u v w x y : Pos) :
    ReadsStmt (⟨.word .ifWord, p⟩ :: ⟨.mark .lparen, q⟩ :: (cs ++ ⟨.mark .rparen, r⟩ :: ⟨.mark .lbrace, u⟩ ::
      (ts ++ ⟨.mark .rbrace, v⟩ :: ⟨.word .elseWord, w⟩ :: ⟨.mark .lbrace, x⟩ :: (us ++ [⟨.mark .rbrace, y⟩]))))
      (.ifElse c yes no p) := by
  refine .of_word (by decide) p fun lines after n hafter hn => ?_
  simp only [List.length_append, List.length_cons, List.length_nil] at hn
  simp only [List.append_assoc, List.cons_append, List.nil_append]
  rw [statement, bind_eq (p := peek) rfl]
  dsimp only [next]
  rw [bind_eq (p := advance) rfl]
  dsimp only [Parser.rest]
  rw [bind_eq (condition_eq hc _ _ q r _ (by omega)), bind_eq (hyes.branch_eq lines u v _ (by omega)),
    bind_eq (acceptWord_eq ..)]
  dsimp only
  rw [bind_eq (hno.branch_eq lines x y after (by omega))]
  rfl

theorem ReadsStmt.doWhile (hb : ReadsBody ts body) (hc : Yields 0 cs c) (p q r u v w x : Pos) :
    ReadsStmt (⟨.word .doWord, p⟩ :: ⟨.mark .lbrace, q⟩ :: (ts ++ ⟨.mark .rbrace, r⟩ :: ⟨.word .whileWord, u⟩ ::
      ⟨.mark .lparen, v⟩ :: (cs ++ [⟨.mark .rparen, w⟩, ⟨.mark .semicolon, x⟩]))) (.doWhile body c p) := by
  refine .of_word (by decide) p fun lines after n _ hn => ?_
  simp only [List.length_append, List.length_cons, List.length_nil] at hn
  simp only [List.append_assoc, List.cons_append, List.nil_append]
  rw [statement, bind_eq (p := peek) rfl]
  dsimp only [next]
  rw [bind_eq (p := advance) rfl]
  dsimp only [Parser.rest]
  rw [bind_eq (hb.branch_eq lines q r _ (by omega)), bind_eq (p := expectWord .whileWord _) rfl,
    bind_eq (condition_eq hc _ _ v w _ (by omega)), bind_eq (expect_eq ..)]
  rfl

theorem ReadsStmt.forLoop {is us vs : List Token} {i : ForInit} {o o' : Option Expr} (hi : YieldsForInit is i)
    (ho : YieldsOption us o) (ho' : YieldsOption vs o') (hb : ReadsBody ts body) (p q r u v w : Pos) :
    ReadsStmt (⟨.word .forWord, p⟩ :: ⟨.mark .lparen, q⟩ :: (is ++ (us ++ ⟨.mark .semicolon, r⟩ ::
      (vs ++ ⟨.mark .rparen, u⟩ :: ⟨.mark .lbrace, v⟩ :: (ts ++ [⟨.mark .rbrace, w⟩])))))
      (.forLoop i o o' body p) := by
  refine .of_word (by decide) p fun lines after n _ hn => ?_
  simp only [List.length_append, List.length_cons, List.length_nil] at hn
  simp only [List.append_assoc, List.cons_append, List.nil_append]
  rw [statement, bind_eq (p := peek) rfl]
  dsimp only [next]
  rw [bind_eq (p := advance) rfl]
  dsimp only [Parser.rest]
  rw [bind_eq (expect_eq ..), bind_eq (forInit_eq hi _ (by omega)),
    bind_eq (exprUnless_eq ho (m := .semicolon) rfl rfl r _ (by omega)), bind_eq (expect_eq ..),
    bind_eq (exprUnless_eq ho' (m := .rparen) rfl rfl u _ (by omega)), bind_eq (expect_eq ..),
    bind_eq (hb.branch_eq lines v w after (by omega))]
  rfl

theorem ReadsStmt.block (hb : ReadsBody ts body) (p q : Pos) :
    ReadsStmt (⟨.mark .lbrace, p⟩ :: (ts ++ [⟨.mark .rbrace, q⟩])) (.block body p) := by
  refine ⟨⟨_, _, rfl, nofun, nofun, nofun⟩, fun lines after n _ hn => ?_⟩
  simp only [List.length_append, List.length_cons, List.length_nil] at hn
  obtain ⟨n, rfl⟩ : ∃ m, n = m + 1 := ⟨n - 1, by omega⟩
  simp only [List.append_assoc, List.cons_append, List.nil_append]
  rw [statement, bind_eq (p := peek) rfl]
  dsimp only [next]
  rw [bind_eq (p := advance) rfl]
  dsimp only [Parser.rest]
  rw [bind_eq (hb.read_eq lines q after n (by omega)), bind_eq (expect_eq ..)]
  rfl

theorem statement_cout (lines : List String) (p : Pos) (us : List Token) :
    statement lines (n + 1) (⟨.name "cout", p⟩ :: us) = output n p us := rfl

theorem ReadsStmt.output {es : List Expr} (h : YieldsItems ts es) (hne : es ≠ []) (p q : Pos) :
    ReadsStmt (⟨.name "cout", p⟩ :: (ts ++ [⟨.mark .semicolon, q⟩])) (.output es p) := by
  refine ⟨⟨_, _, rfl, nofun, nofun, nofun⟩, fun lines after n _ hn => ?_⟩
  simp only [List.length_append, List.length_cons, List.length_nil] at hn
  obtain ⟨n, rfl⟩ : ∃ m, n = m + 1 := ⟨n - 1, by omega⟩
  have hitems := outputItems_eq h q after (n := n) (by omega)
  have hempty : es.isEmpty = false := List.isEmpty_eq_false_iff.mpr hne
  simp only [List.append_assoc, List.cons_append, List.nil_append]
  rw [statement_cout, Parser.output, bind_eq hitems, hempty, if_neg (by decide)]
  dsimp only
  rw [bind_eq (expect_eq ..)]
  rfl

/-- A statement that starts with a type is a declaration. -/
theorem statement_decl {lines : List String} {w : Keyword} (hw : w.startsType) (p : Pos) (us : List Token) :
    statement lines (n + 1) (⟨.word w, p⟩ :: us) = (do
      let ts ← get
      if atFunction n ts then throw .nestedFunction
      return .decl (← declaration n) : Parser Stmt) (⟨.word w, p⟩ :: us) := by
  rw [statement, bind_eq (p := peek) rfl]
  cases w <;> first | rfl | cases hw

theorem ReadsStmt.decl {d : VarDecl} (h : ReadsDecl ts d) : ReadsStmt ts (.decl d) := by
  obtain ⟨w, p, us, rfl, hw⟩ := h.starts
  have hne : w ≠ .elseWord := by
    rintro rfl
    cases hw
  refine .of_word hne p fun lines after n _ hn => ?_
  have hdecl := h.declaration_eq after n (by rw [List.length_cons]; omega)
  have hhead := h.atFunction_eq after n (by rw [List.length_cons]; omega)
  rw [List.cons_append] at hdecl hhead
  rw [statement_decl hw, bind_eq (p := get) rfl, hhead, if_neg (by decide)]
  dsimp only
  rw [bind_eq hdecl]
  rfl

/-- A statement that starts as an expression does, and as no other statement, is an expression. -/
theorem statement_expr {lines : List String} {k : Token.Kind} (hk : startsExpr k) (hother : opensOther k = false)
    (p : Pos) (us : List Token) :
    statement lines (n + 1) (⟨k, p⟩ :: us) = exprStatement n p (⟨k, p⟩ :: us) := by
  rw [statement, bind_eq (p := peek) rfl]
  dsimp only [next]
  refine congrFun ?_ _
  cases k with
  | name s =>
    split
    all_goals first
      | contradiction
      | rfl
      | next hs => exact absurd hother (by rw [hs]; decide)
  | mark m => cases m <;> first | rfl | exact absurd hother (by decide)
  | word w => cases w <;> first | rfl | exact absurd hother (by decide) | exact absurd hk (by decide)
  | _ => rfl

theorem ReadsStmt.expr {k : Token.Kind} {p : Pos} (h : Yields 0 (⟨k, p⟩ :: ts) e) (hother : opensOther k = false)
    (q : Pos) : ReadsStmt (⟨k, p⟩ :: (ts ++ [⟨.mark .semicolon, q⟩])) (.expr e p) := by
  obtain ⟨t, vs, hts, hk⟩ := h.starts
  obtain ⟨rfl, -⟩ := List.cons.inj hts
  have hends (j : Token.Kind) (hj : startsExpr j = false) : k ≠ j := by
    rintro rfl
    exact Bool.false_ne_true (hj.symm.trans hk)
  refine ⟨⟨_, _, rfl, hends _ rfl, hends _ rfl, hends _ rfl⟩, fun lines after n _ hn => ?_⟩
  simp only [List.length_append, List.length_cons, List.length_nil] at hn
  obtain ⟨n, rfl⟩ : ∃ m, n = m + 1 := ⟨n - 1, by omega⟩
  have hread := h.read_eq (⟨.mark .semicolon, q⟩ :: after) (.of_none rfl q after) n (by rw [List.length_cons]; omega)
  rw [List.cons_append] at hread
  rw [List.cons_append, List.append_assoc, List.singleton_append, statement_expr hk hother, exprStatement,
    bind_eq hread, bind_eq (expect_eq ..)]
  rfl

end Parser

end CallTrace.Surface
