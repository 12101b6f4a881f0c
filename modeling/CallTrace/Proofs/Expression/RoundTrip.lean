import CallTrace.Proofs.Expression.Tokens

/-! # Reading a printed expression gives it back

* `Expr.print_eq`, `Expr.Written.spelled`: for a tree without vectors that are built from a size, the printer
  gives the tokens of the tree.
* `Parser.Recovers l ks e`: tokens of the kinds `ks` are read at level `l` as `e`, up to places.
* `Parser.expr_print`: what reads an expression inverts the printer.
-/

namespace CallTrace.Surface
set_option autoImplicit false

namespace Expr

mutual

theorem print_eq : (e : Expr) → e.Written → e.print = e.tokens
  | .int .., _ | .float .., _ | .bool .., _ | .char .., _ | .str .., _ | .var .., _ => rfl
  | .list items _, h | .call _ items _, h => by simp only [print, tokens, printList_eq items h]
  | .binary _ a b _, h | .assign a b _, h | .index a b _, h => by
    simp only [print, tokens, print_eq a h.1, print_eq b h.2]
  | .unary _ a _, h => by simp only [print, tokens, print_eq a h]
  | .ternary c a b _, h => by simp only [print, tokens, print_eq c h.1, print_eq a h.2.1, print_eq b h.2.2]
  | .compound a _ b _, h => by simp only [print, tokens, print_eq a h.1, print_eq b h.2.2]
  | .method a _ args _, h => by simp only [print, tokens, print_eq a h.1, printList_eq args h.2]

theorem printList_eq : (es : List Expr) → WrittenAll es → printList es = tokensList es
  | [], _ => rfl
  | e :: es, h => by simp only [printList, tokensList, print_eq e h.1, printMore_eq es h.2]

theorem printMore_eq : (es : List Expr) → WrittenAll es → printMore es = tokensMore es
  | [], _ => rfl
  | e :: es, h => by simp only [printMore, tokensMore, print_eq e h.1, printMore_eq es h.2]

end

mutual

theorem Written.spelled : {e : Expr} → e.Written → e.Spelled
  | .int .., _ | .float .., _ | .bool .., _ | .char .., _ | .str .., _ | .var .., _ => trivial
  | .list .., h | .call .., h => WrittenAll.spelled h
  | .binary .., h | .assign .., h | .index .., h => ⟨h.1.spelled, h.2.spelled⟩
  | .unary _ a _, h => Written.spelled (e := a) h
  | .ternary .., h => ⟨h.1.spelled, h.2.1.spelled, h.2.2.spelled⟩
  | .compound .., h => ⟨h.1.spelled, h.2.1, h.2.2.spelled⟩
  | .method .., h => ⟨h.1.spelled, h.2.spelled⟩

theorem WrittenAll.spelled : {es : List Expr} → WrittenAll es → SpelledAll es
  | [], _ => trivial
  | _ :: _, h => ⟨h.1.spelled, h.2.spelled⟩

end

end Expr

namespace Parser

variable {ts : List Token} {e : Expr}

/-- Tokens of the kinds `ks` are read at level `l` as the tree `e`, up to places. -/
def Recovers (l : Nat) (ks : List Token.Kind) (e : Expr) : Prop :=
  ∀ ts : List Token, ts.map (·.kind) = ks → ∃ e', e'.erase = e.erase ∧ Yields l ts e'

theorem Recovers.free (h : Recovers e.level e.print e) : Recovers 0 e.print e := by
  intro ts hts
  obtain ⟨e', he, hy⟩ := h ts hts
  exact ⟨e', he, hy.loosen (Nat.zero_le _) e.level_le_nine⟩

theorem recovers (e : Expr) (h : e.Written) : Recovers e.level e.print e := by
  intro ts hts
  exact readBack e h.spelled ts (.of_map (hts.trans (e.print_eq h)))

/-- The marks that may come after an expression. -/
def closers : List Mark := [.semicolon, .rparen, .rbracket, .comma, .colon, .rbrace]

/-- Tokens that are a printed tree, before a mark that may come after an expression, are read as the tree
up to places, and reading stops before the mark. -/
theorem expr_print {e : Expr} (he : e.Written) {ts : List Token}
    (hts : ts.map (·.kind) = e.print) {m : Mark} (hm : m ∈ closers) (p : Pos) (after : List Token)
    {n : Nat} (hn : 16 * ts.length ≤ n) :
    ∃ e', e'.erase = e.erase ∧
      expr n (ts ++ ⟨.mark m, p⟩ :: after) = .ok (e', ⟨.mark m, p⟩ :: after) := by
  obtain ⟨e', hee, hy⟩ := (recovers e he).free ts hts
  have hnone : continues? (.mark m) = none := by
    simp only [closers, List.mem_cons, List.not_mem_nil, or_false] at hm
    rcases hm with rfl | rfl | rfl | rfl | rfl | rfl <;> rfl
  exact ⟨e', hee, hy.read_eq _ (.of_none hnone p after) n hn⟩

/-- The tree of `a - (b - c)` at its tokens, before a semicolon. -/
theorem expr_print_sub_sub :
    let e := Expr.binary .sub (.var "a" .start)
      (.binary .sub (.var "b" .start) (.var "c" .start) .start) .start
    let ts := [.name "a", .mark .minus, .mark .lparen, .name "b", .mark .minus, .name "c",
      .mark .rparen].map fun k : Token.Kind => Token.mk k .start
    e.Written ∧ ts.map (·.kind) = e.print ∧ Mark.semicolon ∈ closers ∧ 16 * ts.length ≤ 112 ∧
      ∃ e', e'.erase = e.erase ∧
        expr 112 (ts ++ [⟨.mark .semicolon, .start⟩]) = .ok (e', [⟨.mark .semicolon, .start⟩]) := by
  intro e ts
  have he : e.Written := ⟨trivial, trivial, trivial⟩
  exact ⟨he, rfl, by decide, by decide, expr_print he rfl (by decide) .start [] (by decide)⟩

end Parser

end CallTrace.Surface
