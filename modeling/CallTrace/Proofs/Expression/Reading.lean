import CallTrace.Proofs.Expression.Printer

/-! # What the readers of expressions read

* `Parser.Follows l ts`: the tokens `ts` do not continue an expression of level `l`.
* `Parser.Yields l ts e`: the readers of level `l` read the tokens `ts` as the tree `e`. For a level whose
  operators associate to the left this says what its reader does together with the operators that come
  after `ts`, since the tokens of a left operand do not show where the operand ends.
* `Yields.loosen` goes to looser levels, `Yields.parens` to the tightest one, and there is one lemma for
  each kind of tree. The fuel is 16 for each token, less what a chain of levels needs.
-/

namespace CallTrace.Surface
set_option autoImplicit false

namespace Parser

/-! ## Steps of a reader -/

theorem bind_eq {α β : Type} {p : Parser α} {f : α → Parser β} {ts us : List Token} {a : α}
    (h : p ts = .ok (a, us)) : (p >>= f) ts = f a us := by
  show (p ts >>= fun x => f x.1 x.2) = _
  rw [h]
  rfl

theorem bind_error {α β : Type} {p : Parser α} {f : α → Parser β} {ts : List Token} {e : ParseError}
    (h : p ts = .error e) : (p >>= f) ts = .error e := by
  show (p ts >>= fun x => f x.1 x.2) = _
  rw [h]
  rfl

theorem accept_eq (m : Mark) (p : Pos) (ts : List Token) :
    accept m (⟨.mark m, p⟩ :: ts) = .ok (some p, ts) := by
  simp [accept]

theorem expect_eq (m : Mark) (place : String) (p : Pos) (ts : List Token) :
    expect m place (⟨.mark m, p⟩ :: ts) = .ok (p, ts) := by
  rw [expect, bind_eq (accept_eq m p ts)]
  rfl

/-! ## What continues an expression -/

/-- The level of the operator that a token is after an operand, if it is one. -/
def continues? : Token.Kind → Option Nat
  | .mark m =>
    match m with
    | .eq | .plusEq | .minusEq | .starEq | .slashEq | .percentEq => some 0
    | .question => some 1
    | .orOr => some 2
    | .andAnd => some 3
    | .eqEq | .notEq => some 4
    | .lt | .le | .gt | .ge => some 5
    | .plus | .minus => some 6
    | .star | .slash | .percent => some 7
    | .plusPlus | .minusMinus | .lbracket | .dot | .lparen => some 9
    | _ => none
  | _ => none

theorem continues?_binOp {m : Mark} {op : BinOp} (h : binOp? m = some op) :
    continues? (.mark m) = some (op.level + 2) := by
  cases m <;> cases h <;> rfl

theorem continues?_compoundOp {m : Mark} {op : BinOp} (h : compoundOp? m = some op) :
    continues? (.mark m) = some 0 := by
  cases m <;> cases h <;> rfl

/-- The tokens do not continue an expression of a level: they start with no operator, or with one of a
looser level. -/
def Follows (l : Nat) (ts : List Token) : Prop :=
  ∀ t ∈ ts.head?, ∀ j ∈ continues? t.kind, j < l

theorem Follows.mono {l j : Nat} {ts : List Token} (h : Follows j ts) (hl : j ≤ l) :
    Follows l ts :=
  fun t ht i hi => Nat.lt_of_lt_of_le (h t ht i hi) hl

theorem Follows.of_none {l : Nat} {k : Token.Kind} (h : continues? k = none) (p : Pos)
    (ts : List Token) : Follows l (⟨k, p⟩ :: ts) := by
  intro t ht j hj
  obtain rfl := Option.some.inj ht
  exact nomatch h.symm.trans hj

theorem Follows.of_lt {l j : Nat} {k : Token.Kind} (h : continues? k = some j) (hj : j < l)
    (p : Pos) (ts : List Token) : Follows l (⟨k, p⟩ :: ts) := by
  intro t ht i hi
  obtain rfl := Option.some.inj ht
  exact Option.some.inj (h.symm.trans hi) ▸ hj

theorem accept_none {m : Mark} {l j : Nat} {ts : List Token} (h : Follows l ts)
    (hm : continues? (.mark m) = some j) (hj : l ≤ j) : accept m ts = .ok (none, ts) := by
  obtain _ | ⟨⟨k, p⟩, us⟩ := ts
  · rfl
  cases k with
  | mark k =>
    have hne : k ≠ m := by
      rintro rfl
      exact absurd (h _ rfl j hm) (Nat.not_lt.mpr hj)
    simp [accept, hne]
  | _ => rfl

theorem acceptCompound_none {ts : List Token} (h : Follows 0 ts) :
    acceptCompound ts = .ok (none, ts) := by
  obtain _ | ⟨⟨k, p⟩, us⟩ := ts
  · rfl
  cases k with
  | mark m =>
    cases hm : compoundOp? m with
    | none => simp only [acceptCompound, hm]
    | some op => exact absurd (h _ rfl 0 (continues?_compoundOp hm)) (Nat.lt_irrefl 0)
  | _ => rfl

theorem acceptCompound_eq {op : BinOp} {m : Mark} (h : compoundOp? m = some op) (p : Pos)
    (ts : List Token) : acceptCompound (⟨.mark m, p⟩ :: ts) = .ok (some (op, p), ts) := by
  simp only [acceptCompound, h]

theorem acceptBinOp_none {l p : Nat} {ts : List Token} (h : Follows l ts) (hl : l ≤ p + 2) :
    acceptBinOp p ts = .ok (none, ts) := by
  obtain _ | ⟨⟨k, q⟩, us⟩ := ts
  · rfl
  cases k with
  | mark m =>
    cases hm : binOp? m with
    | none => simp only [acceptBinOp, hm]
    | some op =>
      have hlt : op.level + 2 < l := h _ rfl _ (continues?_binOp hm)
      have hne : op.level ≠ p := by omega
      simp only [acceptBinOp, hm, if_neg hne]
  | _ => rfl

theorem acceptBinOp_eq (op : BinOp) (p : Pos) (ts : List Token) :
    acceptBinOp op.level (⟨.mark (binMark op), p⟩ :: ts) = .ok (some (op, p), ts) := by
  simp only [acceptBinOp, binOp?_binMark, if_true]

theorem suffixes_eq {ts : List Token} (h : Follows 9 ts) (n : Nat) (e : Expr) :
    suffixes (n + 1) e ts = .ok (e, ts) := by
  rw [suffixes, bind_eq (p := peek) rfl]
  obtain _ | ⟨⟨k, p⟩, us⟩ := ts
  · rfl
  cases k with
  | mark m =>
    cases m
    case plusPlus | minusMinus | lbracket | dot | lparen =>
      exact absurd (h _ rfl 9 rfl) (Nat.lt_irrefl 9)
    all_goals rfl
  | _ => rfl

/-! ## What a level reads -/

/-- Whether an operand can start with a token. -/
def startsOperand : Token.Kind → Bool
  | .int _ | .float _ | .char _ | .str _ | .name _ => true
  | .word k => k == .trueWord || k == .falseWord || k == .vector
  | .mark m => m == .lparen || m == .lbrace
  | _ => false

/-- Whether an expression can start with a token. -/
def startsExpr : Token.Kind → Bool
  | .mark m => m == .lparen || m == .lbrace || m == .bang || m == .minus || m == .plusPlus ||
      m == .minusMinus
  | k => startsOperand k

theorem startsExpr_of_startsOperand {k : Token.Kind} (h : startsOperand k) : startsExpr k := by
  cases k with
  | mark m => cases m <;> first | rfl | cases h
  | _ => exact h

/-- The tokens start with one of a kind. -/
def Starts (p : Token.Kind → Bool) (ts : List Token) : Prop :=
  ∃ t us, ts = t :: us ∧ p t.kind

theorem Starts.append {p : Token.Kind → Bool} {ts : List Token} (h : Starts p ts)
    (us : List Token) : Starts p (ts ++ us) := by
  obtain ⟨t, rest, rfl, ht⟩ := h
  exact ⟨t, rest ++ us, rfl, ht⟩

theorem Starts.length_pos {p : Token.Kind → Bool} {ts : List Token} (h : Starts p ts) :
    0 < ts.length := by
  obtain ⟨t, rest, rfl, -⟩ := h
  exact Nat.succ_pos _

/-- The reader `read` of level `l` reads the tokens `ts` as `e`. Its chain of levels needs `slack` less
fuel than the loosest level. -/
structure Reads (read : Nat → Parser Expr) (slack l : Nat) (ts : List Token) (e : Expr) : Prop where
  starts : Starts startsExpr ts
  read_eq : ∀ rest, Follows l rest → ∀ n, 16 * ts.length ≤ n + slack →
    read n (ts ++ rest) = .ok (e, rest)

/-- The tokens `ts` are the operand `e` of level `p` as far as its operators have been read: reading goes
on with the operators after `ts`. -/
structure ReadsBinary (p : Nat) (ts : List Token) (e : Expr) : Prop where
  starts : Starts startsExpr ts
  read_eq : ∀ rest, Follows (p + 3) rest → ∀ c r, (∀ n, c < n → binaryTail n p e rest = r) →
    ∀ n, c + 16 * ts.length ≤ n + (p + 2) → binary n p (ts ++ rest) = r

/-- The tokens `ts` are the operand `e` as far as what follows it has been read: reading goes on with
what follows `ts`. -/
structure ReadsSuffixed (ts : List Token) (e : Expr) : Prop where
  starts : Starts startsOperand ts
  read_eq : ∀ rest c r, (∀ n, c < n → suffixes n e rest = r) →
    ∀ n, c + 16 * ts.length ≤ n + 10 → suffixed n (ts ++ rest) = r

/-- The readers of level `l` read the tokens `ts` as `e`. -/
def Yields : Nat → List Token → Expr → Prop
  | 0 => Reads expr 0 0
  | 1 => Reads ternary 1 1
  | 2 => ReadsBinary 0
  | 3 => ReadsBinary 1
  | 4 => ReadsBinary 2
  | 5 => ReadsBinary 3
  | 6 => ReadsBinary 4
  | 7 => ReadsBinary 5
  | 8 => Reads unary 9 9
  | _ => ReadsSuffixed

theorem yields_binary {p : Nat} (hp : p < 6) : Yields (p + 2) = ReadsBinary p := by
  match p, hp with
  | 0, _ | 1, _ | 2, _ | 3, _ | 4, _ | 5, _ => rfl

/-! ## From a level to a looser one -/

variable {ts : List Token} {e : Expr}

theorem binaryTail_eq {p : Nat} (h : Follows (p + 2) ts) (n : Nat) (e : Expr) :
    binaryTail (n + 1) p e ts = .ok (e, ts) := by
  rw [binaryTail, bind_eq (acceptBinOp_none h (Nat.le_refl _))]
  rfl

theorem ReadsBinary.reads {p : Nat} (h : ReadsBinary p ts e) :
    Reads (fun n => binary n p) (p + 2) (p + 2) ts e := by
  refine ⟨h.starts, fun rest hrest n hn => ?_⟩
  refine h.read_eq rest (hrest.mono (Nat.le_succ _)) 0 _ (fun n hn => ?_) n (by omega)
  obtain ⟨n, rfl⟩ := Nat.exists_eq_succ_of_ne_zero (Nat.pos_iff_ne_zero.mp hn)
  exact binaryTail_eq hrest n e

/-- Without binary operators a binary level reads what is before the operators. -/
theorem Reads.binary_six (h : Reads unary 9 9 ts e) : Reads (fun n => binary n 6) 8 8 ts e := by
  refine ⟨h.starts, fun rest hrest n hn => ?_⟩
  have hpos := h.starts.length_pos
  obtain ⟨n, rfl⟩ : ∃ m, n = m + 1 := ⟨n - 1, by omega⟩
  have hread := h.read_eq rest (hrest.mono (by omega)) n (by omega)
  show binary (n + 1) 6 _ = _
  rw [binary, if_neg (Nat.lt_irrefl 6), bind_eq hread]
  rfl

/-- A binary level reads its first operand at the next level. -/
theorem Reads.binary {p : Nat} (hp : p < 6)
    (h : Reads (fun n => Parser.binary n (p + 1)) (p + 3) (p + 3) ts e) : ReadsBinary p ts e := by
  refine ⟨h.starts, fun rest hrest c r hc n hn => ?_⟩
  have hpos := h.starts.length_pos
  obtain ⟨n, rfl⟩ : ∃ m, n = m + 1 := ⟨n - 1, by omega⟩
  rw [Parser.binary, if_pos hp, bind_eq (h.read_eq rest hrest n (by omega))]
  simp only [if_pos hp]
  exact hc n (by omega)

theorem ReadsBinary.ternary (h : ReadsBinary 0 ts e) : Reads ternary 1 1 ts e := by
  refine ⟨h.starts, fun rest hrest n hn => ?_⟩
  have hpos := h.starts.length_pos
  obtain ⟨n, rfl⟩ : ∃ m, n = m + 1 := ⟨n - 1, by omega⟩
  have hread := h.reads.read_eq rest (hrest.mono (by omega)) n (by omega)
  rw [Parser.ternary, bind_eq hread, bind_eq (accept_none hrest rfl (Nat.le_refl 1))]
  rfl

theorem Reads.expr (h : Reads ternary 1 1 ts e) : Reads expr 0 0 ts e := by
  refine ⟨h.starts, fun rest hrest n hn => ?_⟩
  have hpos := h.starts.length_pos
  obtain ⟨n, rfl⟩ : ∃ m, n = m + 1 := ⟨n - 1, by omega⟩
  have hread := h.read_eq rest (hrest.mono (by omega)) n (by omega)
  rw [Parser.expr, bind_eq hread, bind_eq (accept_none hrest rfl (Nat.le_refl 0))]
  dsimp only
  rw [bind_eq (acceptCompound_none hrest)]
  rfl

theorem unary_eq_suffixed {k : Token.Kind} (hk : startsOperand k) (p : Pos) (us : List Token)
    (n : Nat) : unary (n + 1) (⟨k, p⟩ :: us) = suffixed n (⟨k, p⟩ :: us) := by
  rw [unary, bind_eq (p := peek) rfl]
  cases k with
  | mark m =>
    cases m
    case lparen | lbrace => rfl
    all_goals cases hk
  | _ => rfl

theorem ReadsSuffixed.unary (h : ReadsSuffixed ts e) : Reads unary 9 9 ts e := by
  obtain ⟨t, us, rfl, ht⟩ := h.starts
  refine ⟨⟨t, us, rfl, startsExpr_of_startsOperand ht⟩, fun rest hrest n hn => ?_⟩
  have hpos := h.starts.length_pos
  obtain ⟨n, rfl⟩ : ∃ m, n = m + 1 := ⟨n - 1, by omega⟩
  refine (unary_eq_suffixed ht t.pos (us ++ rest) n).trans
    (h.read_eq rest 0 _ (fun n hn => ?_) n (by omega))
  obtain ⟨n, rfl⟩ := Nat.exists_eq_succ_of_ne_zero (Nat.pos_iff_ne_zero.mp hn)
  exact suffixes_eq hrest n e

/-- What one level reads, the next looser one reads too. -/
theorem Yields.pred {l : Nat} (hl : l < 9) (h : Yields (l + 1) ts e) : Yields l ts e := by
  match l, hl with
  | 0, _ => exact Reads.expr h
  | 1, _ => exact ReadsBinary.ternary h
  | 2, _ | 3, _ | 4, _ | 5, _ | 6, _ => exact (ReadsBinary.reads h).binary (by omega)
  | 7, _ => exact (Reads.binary_six h).binary (by omega)
  | 8, _ => exact ReadsSuffixed.unary h

theorem Yields.loosen {l j : Nat} (hj : j ≤ l) (hl : l ≤ 9) (h : Yields l ts e) :
    Yields j ts e := by
  induction l with
  | zero => exact Nat.le_zero.mp hj ▸ h
  | succ l ih =>
    rcases Nat.lt_or_eq_of_le hj with hlt | rfl
    · exact ih (by omega) (by omega) (h.pred (by omega))
    · exact h

/-! ## Lists -/

/-- The tokens `ts` are the trees `es` between commas, of which there is at least one. -/
structure ReadsMore (ts : List Token) (es : List Expr) : Prop where
  starts : Starts startsExpr ts
  expressions_eq : ∀ p rest n, 16 * ts.length < n →
    expressions n (ts ++ ⟨.mark .rparen, p⟩ :: rest) = .ok (es, ⟨.mark .rparen, p⟩ :: rest)
  listItems_eq : ∀ p rest n, 16 * ts.length < n →
    listItems n (ts ++ ⟨.mark .rbrace, p⟩ :: rest) = .ok (es, ⟨.mark .rbrace, p⟩ :: rest)

/-- The tokens `ts` are the trees `es` between commas, as arguments and as items of a list. -/
structure ReadsAll (ts : List Token) (es : List Expr) : Prop where
  arguments_eq : ∀ p rest n, 16 * ts.length + 1 < n →
    arguments n (ts ++ ⟨.mark .rparen, p⟩ :: rest) = .ok (es, ⟨.mark .rparen, p⟩ :: rest)
  listItems_eq : ∀ p rest n, 16 * ts.length < n →
    listItems n (ts ++ ⟨.mark .rbrace, p⟩ :: rest) = .ok (es, ⟨.mark .rbrace, p⟩ :: rest)

/-- No expression starts with a token that ends a list. -/
theorem at?_eq {m : Mark} (h : Starts startsExpr ts) (hm : startsExpr (.mark m) = false) :
    at? m ts = .ok (false, ts) := by
  obtain ⟨⟨k, p⟩, us, rfl, hk⟩ := h
  cases k with
  | mark k =>
    have hne : k ≠ m := by
      rintro rfl
      exact Bool.false_ne_true (hm.symm.trans hk)
    simp only [at?, beq_eq_false_iff_ne.mpr hne]
  | _ => rfl

theorem listItems_cons (h : Starts startsExpr ts) (n : Nat) :
    listItems (n + 1) ts = (do
      let e ← expr n
      match ← accept .comma with
      | some _ => return e :: (← listItems n)
      | none => return [e] : Parser (List Expr)) ts := by
  rw [listItems, bind_eq (at?_eq h rfl)]
  rfl

theorem ReadsMore.single (h : Yields 0 ts e) : ReadsMore ts [e] := by
  refine ⟨h.starts, fun p rest n hn => ?_, fun p rest n hn => ?_⟩
  · obtain ⟨n, rfl⟩ : ∃ m, n = m + 1 := ⟨n - 1, by omega⟩
    have hread := h.read_eq (⟨.mark .rparen, p⟩ :: rest) (.of_none rfl p rest) n (by omega)
    rw [expressions, bind_eq hread]
    rfl
  · obtain ⟨n, rfl⟩ : ∃ m, n = m + 1 := ⟨n - 1, by omega⟩
    have hread := h.read_eq (⟨.mark .rbrace, p⟩ :: rest) (.of_none rfl p rest) n (by omega)
    rw [listItems_cons (h.starts.append _), bind_eq hread]
    rfl

theorem ReadsMore.cons {us : List Token} {es : List Expr} (h : Yields 0 ts e)
    (hus : ReadsMore us es) (q : Pos) : ReadsMore (ts ++ ⟨.mark .comma, q⟩ :: us) (e :: es) := by
  refine ⟨h.starts.append _, fun p rest n hn => ?_, fun p rest n hn => ?_⟩
  · rw [List.length_append, List.length_cons] at hn
    obtain ⟨n, rfl⟩ : ∃ m, n = m + 1 := ⟨n - 1, by omega⟩
    have hread := h.read_eq (⟨.mark .comma, q⟩ :: (us ++ ⟨.mark .rparen, p⟩ :: rest))
      (.of_none rfl q _) n (by omega)
    rw [List.append_assoc, List.cons_append, expressions, bind_eq hread, bind_eq (accept_eq ..)]
    dsimp only
    rw [bind_eq (hus.expressions_eq p rest n (by omega))]
    rfl
  · rw [List.length_append, List.length_cons] at hn
    obtain ⟨n, rfl⟩ : ∃ m, n = m + 1 := ⟨n - 1, by omega⟩
    have hread := h.read_eq (⟨.mark .comma, q⟩ :: (us ++ ⟨.mark .rbrace, p⟩ :: rest))
      (.of_none rfl q _) n (by omega)
    rw [List.append_assoc, List.cons_append, listItems_cons (h.starts.append _), bind_eq hread,
      bind_eq (accept_eq ..)]
    dsimp only
    rw [bind_eq (hus.listItems_eq p rest n (by omega))]
    rfl

theorem ReadsMore.all {es : List Expr} (h : ReadsMore ts es) : ReadsAll ts es := by
  refine ⟨fun p rest n hn => ?_, h.listItems_eq⟩
  obtain ⟨n, rfl⟩ : ∃ m, n = m + 1 := ⟨n - 1, by omega⟩
  rw [arguments, bind_eq (at?_eq (h.starts.append _) rfl)]
  exact h.expressions_eq p rest n (by omega)

theorem ReadsAll.nil : ReadsAll [] [] := by
  refine ⟨fun p rest n hn => ?_, fun p rest n hn => ?_⟩
  all_goals
    obtain ⟨n, rfl⟩ : ∃ m, n = m + 1 := ⟨n - 1, by omega⟩
    rfl

/-! ## One kind of tree after another -/

theorem Yields.operand {t : Token} (ht : startsOperand t.kind)
    (h : ∀ n rest, primary (n + 1) (t :: rest) = .ok (e, rest)) : Yields 9 [t] e := by
  refine ⟨⟨t, [], rfl, ht⟩, fun rest c r hc n hn => ?_⟩
  rw [List.length_singleton] at hn
  obtain ⟨n, rfl⟩ : ∃ m, n = m + 2 := ⟨n - 2, by omega⟩
  rw [suffixed, List.singleton_append, bind_eq (h n rest)]
  exact hc (n + 1) (by omega)

theorem Yields.parens (h : Yields 0 ts e) (p q : Pos) :
    Yields 9 (⟨.mark .lparen, p⟩ :: (ts ++ [⟨.mark .rparen, q⟩])) e := by
  refine ⟨⟨_, _, rfl, rfl⟩, fun rest c r hc n hn => ?_⟩
  rw [List.length_cons, List.length_append, List.length_singleton] at hn
  obtain ⟨n, rfl⟩ : ∃ m, n = m + 2 := ⟨n - 2, by omega⟩
  have hread := h.read_eq (⟨.mark .rparen, q⟩ :: rest) (.of_none rfl q rest) n (by omega)
  have hprimary : primary (n + 1) (⟨.mark .lparen, p⟩ :: (ts ++ ⟨.mark .rparen, q⟩ :: rest)) =
      .ok (e, rest) := by
    rw [primary, bind_eq (p := peek) rfl]
    dsimp only [next]
    rw [bind_eq (p := advance) rfl]
    dsimp only [Parser.rest]
    rw [bind_eq hread, bind_eq (expect_eq ..)]
    rfl
  rw [suffixed, List.cons_append, List.append_assoc, List.singleton_append, bind_eq hprimary]
  exact hc (n + 1) (by omega)

theorem Yields.list {es : List Expr} (h : ReadsAll ts es) (p q : Pos) :
    Yields 9 (⟨.mark .lbrace, p⟩ :: (ts ++ [⟨.mark .rbrace, q⟩])) (.list es p) := by
  refine ⟨⟨_, _, rfl, rfl⟩, fun rest c r hc n hn => ?_⟩
  rw [List.length_cons, List.length_append, List.length_singleton] at hn
  obtain ⟨n, rfl⟩ : ∃ m, n = m + 2 := ⟨n - 2, by omega⟩
  have hprimary : primary (n + 1) (⟨.mark .lbrace, p⟩ :: (ts ++ ⟨.mark .rbrace, q⟩ :: rest)) =
      .ok (.list es p, rest) := by
    rw [primary, bind_eq (p := peek) rfl]
    dsimp only [next]
    rw [bind_eq (p := advance) rfl]
    dsimp only [Parser.rest]
    rw [bind_eq (h.listItems_eq q rest n (by omega)), bind_eq (expect_eq ..)]
    rfl
  rw [suffixed, List.cons_append, List.append_assoc, List.singleton_append, bind_eq hprimary]
  exact hc (n + 1) (by omega)

/-- What follows an operand makes one more operand out of it. -/
theorem Yields.append {us : List Token} {e' : Expr} (h : Yields 9 ts e) (hpos : 0 < us.length)
    (hus : ∀ rest n, 16 * us.length ≤ n →
      suffixes (n + 1) e (us ++ rest) = suffixes n e' rest) : Yields 9 (ts ++ us) e' := by
  refine ⟨h.starts.append us, fun rest c r hc n hn => ?_⟩
  rw [List.length_append] at hn
  rw [List.append_assoc]
  refine h.read_eq (us ++ rest) (c + 16 * us.length) r (fun n hn => ?_) n (by omega)
  obtain ⟨n, rfl⟩ : ∃ m, n = m + 1 := ⟨n - 1, by omega⟩
  rw [hus rest n (by omega)]
  exact hc n (by omega)

theorem Yields.postInc (h : Yields 9 ts e) (p : Pos) :
    Yields 9 (ts ++ [⟨.mark .plusPlus, p⟩]) (.unary .postInc e p) :=
  h.append (Nat.succ_pos _) fun _ _ _ => rfl

theorem Yields.postDec (h : Yields 9 ts e) (p : Pos) :
    Yields 9 (ts ++ [⟨.mark .minusMinus, p⟩]) (.unary .postDec e p) :=
  h.append (Nat.succ_pos _) fun _ _ _ => rfl

theorem Yields.index {is : List Token} {i : Expr} (h : Yields 9 ts e) (hi : Yields 0 is i)
    (p q : Pos) :
    Yields 9 (ts ++ ⟨.mark .lbracket, p⟩ :: (is ++ [⟨.mark .rbracket, q⟩])) (.index e i p) := by
  refine h.append (Nat.succ_pos _) fun rest n hn => ?_
  rw [List.length_cons, List.length_append] at hn
  have hread := hi.read_eq (⟨.mark .rbracket, q⟩ :: rest) (.of_none rfl q rest) n (by omega)
  rw [List.cons_append, List.append_assoc, List.singleton_append, suffixes,
    bind_eq (p := peek) rfl]
  dsimp only [next]
  rw [bind_eq (p := advance) rfl]
  dsimp only [Parser.rest]
  rw [bind_eq hread, bind_eq (expect_eq ..)]

theorem Yields.method {as : List Token} {args : List Expr} (h : Yields 9 ts e)
    (ha : ReadsAll as args) (name : String) (p q r u : Pos) :
    Yields 9 (ts ++ ⟨.mark .dot, p⟩ :: ⟨.name name, q⟩ :: ⟨.mark .lparen, r⟩ ::
      (as ++ [⟨.mark .rparen, u⟩])) (.method e name args p) := by
  refine h.append (Nat.succ_pos _) fun rest n hn => ?_
  simp only [List.length_cons, List.length_append] at hn
  simp only [List.cons_append, List.append_assoc, List.nil_append]
  rw [suffixes, bind_eq (p := peek) rfl]
  dsimp only [next]
  rw [bind_eq (p := advance) rfl]
  dsimp only [Parser.rest]
  rw [bind_eq (p := expectName) rfl]
  dsimp only
  rw [bind_eq (expect_eq ..), bind_eq (ha.arguments_eq u rest n (by omega)), bind_eq (expect_eq ..)]

theorem Yields.call {as : List Token} {args : List Expr} (ha : ReadsAll as args) (name : String)
    (p q r : Pos) :
    Yields 9 (⟨.name name, p⟩ :: ⟨.mark .lparen, q⟩ :: (as ++ [⟨.mark .rparen, r⟩]))
      (.call name args p) := by
  have hname : Yields 9 [⟨.name name, p⟩] (.var name p) := .operand rfl fun _ _ => rfl
  refine hname.append (Nat.succ_pos _) fun rest n hn => ?_
  simp only [List.length_cons, List.length_append] at hn
  simp only [List.cons_append, List.append_assoc, List.nil_append]
  rw [suffixes, bind_eq (p := peek) rfl]
  dsimp only [next]
  rw [bind_eq (p := advance) rfl]
  dsimp only [Parser.rest]
  rw [bind_eq (ha.arguments_eq r rest n (by omega)), bind_eq (expect_eq ..)]

theorem Yields.before {op : UnOp} (hop : isSuffix op = false) (h : Yields 8 ts e) (p : Pos) :
    Yields 8 (⟨.mark (unMark op), p⟩ :: ts) (.unary op e p) := by
  refine ⟨⟨_, _, rfl, by cases op <;> rfl⟩, fun rest hrest n hn => ?_⟩
  rw [List.length_cons] at hn
  obtain ⟨n, rfl⟩ : ∃ m, n = m + 1 := ⟨n - 1, by omega⟩
  have hread := h.read_eq rest hrest n (by omega)
  rw [List.cons_append, unary, bind_eq (p := peek) rfl]
  cases op
  case postInc | postDec => cases hop
  all_goals
    dsimp only [next, unMark]
    rw [bind_eq (p := advance) rfl]
    dsimp only [Parser.rest]
    rw [bind_eq hread]
    rfl

theorem Yields.right {p : Nat} (hp : p ≤ 5) (h : Yields (p + 3) ts e) :
    Reads (fun n => Parser.binary n (p + 1)) (p + 3) (p + 3) ts e := by
  match p, hp with
  | 0, _ | 1, _ | 2, _ | 3, _ | 4, _ => exact ReadsBinary.reads h
  | 5, _ => exact Reads.binary_six h

theorem Yields.binary {us : List Token} {e' : Expr} (op : BinOp) (h : Yields (op.level + 2) ts e)
    (h' : Yields (op.level + 3) us e') (p : Pos) :
    Yields (op.level + 2) (ts ++ ⟨.mark (binMark op), p⟩ :: us) (.binary op e e' p) := by
  have hop := level_le_five op
  have hright := h'.right hop
  rw [yields_binary (by omega)] at h ⊢
  refine ⟨h.starts.append _, fun rest hrest c r hc n hn => ?_⟩
  have hpos := hright.starts.length_pos
  rw [List.length_append, List.length_cons] at hn
  rw [List.append_assoc, List.cons_append]
  have hfollows : Follows (op.level + 3) (⟨.mark (binMark op), p⟩ :: (us ++ rest)) :=
    .of_lt (continues?_binOp (binOp?_binMark op)) (Nat.lt_succ_self _) _ _
  refine h.read_eq _ hfollows (c + 16 * us.length) r (fun n hn => ?_) n (by omega)
  obtain ⟨n, rfl⟩ : ∃ m, n = m + 1 := ⟨n - 1, by omega⟩
  rw [binaryTail, bind_eq (acceptBinOp_eq op p _)]
  dsimp only
  rw [bind_eq (hright.read_eq rest hrest n (by omega))]
  exact hc n (by omega)

theorem Yields.ternary {as bs : List Token} {a b : Expr} (h : Yields 2 ts e) (ha : Yields 0 as a)
    (hb : Yields 1 bs b) (p q : Pos) :
    Yields 1 (ts ++ ⟨.mark .question, p⟩ :: (as ++ ⟨.mark .colon, q⟩ :: bs))
      (.ternary e a b p) := by
  refine ⟨h.starts.append _, fun rest hrest n hn => ?_⟩
  simp only [List.length_cons, List.length_append] at hn
  simp only [List.cons_append, List.append_assoc]
  obtain ⟨n, rfl⟩ : ∃ m, n = m + 1 := ⟨n - 1, by omega⟩
  have hcond := h.reads.read_eq (⟨.mark .question, p⟩ :: (as ++ ⟨.mark .colon, q⟩ :: (bs ++ rest)))
    (.of_lt rfl (by omega) _ _) n (by omega)
  have hyes := ha.read_eq (⟨.mark .colon, q⟩ :: (bs ++ rest)) (.of_none rfl _ _) n (by omega)
  rw [Parser.ternary, bind_eq hcond, bind_eq (accept_eq ..)]
  dsimp only
  rw [bind_eq hyes, bind_eq (expect_eq ..), bind_eq (hb.read_eq rest hrest n (by omega))]
  rfl

theorem Yields.assign {us : List Token} {e' : Expr} (h : Yields 1 ts e) (h' : Yields 0 us e')
    (p : Pos) : Yields 0 (ts ++ ⟨.mark .eq, p⟩ :: us) (.assign e e' p) := by
  refine ⟨h.starts.append _, fun rest hrest n hn => ?_⟩
  rw [List.length_append, List.length_cons] at hn
  obtain ⟨n, rfl⟩ : ∃ m, n = m + 1 := ⟨n - 1, by omega⟩
  have htarget := h.read_eq (⟨.mark .eq, p⟩ :: (us ++ rest)) (.of_lt rfl Nat.one_pos _ _) n
    (by omega)
  rw [List.append_assoc, List.cons_append, expr, bind_eq htarget, bind_eq (accept_eq ..)]
  dsimp only
  rw [bind_eq (h'.read_eq rest hrest n (by omega))]
  rfl

theorem Yields.compound {us : List Token} {e' : Expr} {op : BinOp} {m : Mark}
    (hm : compoundMark? op = some m) (h : Yields 1 ts e) (h' : Yields 0 us e') (p : Pos) :
    Yields 0 (ts ++ ⟨.mark m, p⟩ :: us) (.compound e op e' p) := by
  obtain ⟨hop, hne⟩ := compoundOp?_of_mark hm
  refine ⟨h.starts.append _, fun rest hrest n hn => ?_⟩
  rw [List.length_append, List.length_cons] at hn
  obtain ⟨n, rfl⟩ : ∃ m, n = m + 1 := ⟨n - 1, by omega⟩
  have htarget := h.read_eq (⟨.mark m, p⟩ :: (us ++ rest))
    (.of_lt (continues?_compoundOp hop) Nat.one_pos _ _) n (by omega)
  have hnone : accept .eq (⟨.mark m, p⟩ :: (us ++ rest)) = .ok (none, ⟨.mark m, p⟩ :: (us ++ rest)) := by
    simp only [accept, if_neg hne]
  rw [List.append_assoc, List.cons_append, expr, bind_eq htarget, bind_eq hnone]
  dsimp only
  rw [bind_eq (acceptCompound_eq hop p _)]
  dsimp only
  rw [bind_eq (h'.read_eq rest hrest n (by omega))]
  rfl

end Parser

end CallTrace.Surface
