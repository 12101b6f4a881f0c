import CallTrace.Proofs.Expression.Types

/-! # Expressions with vectors

* `Expr.tokens`: the tokens of a tree as `Expr.print` gives them, and those of vectors that are built from a
  size, which are spelled with a type.
* `Expr.Spelled`: the trees that have tokens. A compound assignment has one of the five arithmetic operators.
* `Expr.begun_tokens`, `Expr.ended_tokens`: neither the first nor the last token of a tree is `>`, so a `>>` never
  reaches over the border of a tree.
* `Parser.ReadBack l ks e`: what is spelled by `ks` is read at level `l` as `e`, up to places.
* `Parser.readBack`: every tree that has tokens is read back from them, by induction on the tree.
-/

namespace CallTrace.Surface
set_option autoImplicit false

namespace Expr

mutual

/-- The tokens of a tree. -/
def tokens : Expr → List Token.Kind
  | .int k _ => [.int k]
  | .float x _ => [.float x]
  | .bool b _ => [.word (if b then .trueWord else .falseWord)]
  | .char c _ => [.char c]
  | .str s _ => [.str s]
  | .list items _ => .mark .lbrace :: (tokensList items ++ [.mark .rbrace])
  | .sized size element _ =>
    .word .vector :: .mark .lt :: ((element.print ++ [.mark .gt]) ++ .mark .lparen :: (tokens size ++ [.mark .rparen]))
  | .filled size fill element _ =>
    .word .vector :: .mark .lt :: ((element.print ++ [.mark .gt]) ++
      .mark .lparen :: ((tokens size ++ .mark .comma :: tokens fill) ++ [.mark .rparen]))
  | .var name _ => [.name name]
  | .binary op a b _ =>
    guarded (op.level + 2) a (tokens a) ++ .mark (binMark op) :: guarded (op.level + 3) b (tokens b)
  | .unary op a _ =>
    if isSuffix op then guarded 9 a (tokens a) ++ [.mark (unMark op)]
    else .mark (unMark op) :: guarded 8 a (tokens a)
  | .ternary c a b _ =>
    guarded 2 c (tokens c) ++ .mark .question :: (tokens a ++ .mark .colon :: guarded 1 b (tokens b))
  | .assign a b _ => guarded 1 a (tokens a) ++ .mark .eq :: tokens b
  | .compound a op b _ => guarded 1 a (tokens a) ++ (compoundMark? op).toList.map .mark ++ tokens b
  | .call name args _ => .name name :: .mark .lparen :: (tokensList args ++ [.mark .rparen])
  | .method a name args _ =>
    guarded 9 a (tokens a) ++ .mark .dot :: .name name :: .mark .lparen :: (tokensList args ++ [.mark .rparen])
  | .index a i _ => guarded 9 a (tokens a) ++ .mark .lbracket :: (tokens i ++ [.mark .rbracket])

/-- The tokens of some trees, with commas between them. -/
def tokensList : List Expr → List Token.Kind
  | [] => []
  | e :: es => tokens e ++ tokensMore es

/-- The tokens of the trees after the first one, each with a comma before it. -/
def tokensMore : List Expr → List Token.Kind
  | [] => []
  | e :: es => .mark .comma :: (tokens e ++ tokensMore es)

end

mutual

/-- The trees that have tokens. -/
def Spelled : Expr → Prop
  | .int .. | .float .. | .bool .. | .char .. | .str .. | .var .. => True
  | .list items _ => SpelledAll items
  | .sized size _ _ => Spelled size
  | .filled size fill _ _ => Spelled size ∧ Spelled fill
  | .binary _ a b _ => Spelled a ∧ Spelled b
  | .unary _ a _ => Spelled a
  | .ternary c a b _ => Spelled c ∧ Spelled a ∧ Spelled b
  | .assign a b _ => Spelled a ∧ Spelled b
  | .compound a op b _ => Spelled a ∧ (compoundMark? op).isSome ∧ Spelled b
  | .call _ args _ => SpelledAll args
  | .method a _ args _ => Spelled a ∧ SpelledAll args
  | .index a i _ => Spelled a ∧ Spelled i

/-- All trees of a list have tokens. -/
def SpelledAll : List Expr → Prop
  | [] => True
  | e :: es => Spelled e ∧ SpelledAll es

end

/-! ## The last token -/

/-- The tokens end, and not with `>`. -/
def Ended (ks : List Token.Kind) : Prop := ∃ k, ks.getLast? = some k ∧ k ≠ .mark .gt

theorem Ended.append {ls : List Token.Kind} (h : Ended ls) (ks : List Token.Kind) : Ended (ks ++ ls) := by
  obtain ⟨k, hk, hne⟩ := h
  exact ⟨k, by rw [List.getLast?_append, hk]; rfl, hne⟩

theorem Ended.cons {ls : List Token.Kind} (h : Ended ls) (k : Token.Kind) : Ended (k :: ls) :=
  h.append [k]

theorem Ended.concat (ks : List Token.Kind) {k : Token.Kind} (hk : k ≠ .mark .gt) : Ended (ks ++ [k]) :=
  ⟨k, List.getLast?_concat, hk⟩

theorem Ended.rparen (ks : List Token.Kind) : Ended (ks ++ [.mark .rparen]) := .concat ks nofun

theorem Ended.guarded {e : Expr} {ks : List Token.Kind} (h : Ended ks) (l : Nat) : Ended (e.guarded l ks) := by
  unfold Expr.guarded
  split
  · exact (Ended.rparen ks).cons _
  · exact h

theorem Ended.apart {ks : List Token.Kind} (h : Ended ks) (ls : List Token.Kind) : Splits.Apart ks ls := by
  obtain ⟨k, hk, hne⟩ := h
  refine .inl fun j hj => ?_
  obtain rfl := Option.some.inj (hk.symm.trans hj)
  exact hne

/-- The last token of a tree is no `>`, so none of its tokens can be joined with what comes after it. -/
theorem ended_tokens : (e : Expr) → Ended e.tokens
  | .int .. | .float .. | .char .. | .str .. | .var .. => ⟨_, rfl, nofun⟩
  | .bool true _ | .bool false _ => ⟨_, rfl, nofun⟩
  | .list .. => (Ended.concat _ (k := .mark .rbrace) nofun).cons _
  | .sized .. | .filled .. => ((((Ended.rparen _).cons _).append _).cons _).cons _
  | .binary _ _ b _ => (((ended_tokens b).guarded _).cons _).append _
  | .unary op a _ => by
    unfold tokens
    split
    · exact .concat _ (by cases op <;> nofun)
    · exact ((ended_tokens a).guarded 8).cons _
  | .ternary _ _ b _ => (((((ended_tokens b).guarded _).cons _).append _).cons _).append _
  | .assign _ b _ => ((ended_tokens b).cons _).append _
  | .compound _ _ b _ => (ended_tokens b).append _
  | .call .. => ((Ended.rparen _).cons _).cons _
  | .method .. => ((((Ended.rparen _).cons _).cons _).cons _).append _
  | .index .. => ((Ended.concat _ (k := .mark .rbracket) nofun).cons _).append _

/-! ## The first token -/

/-- The tokens start, and not with `>`. -/
def Begun (ks : List Token.Kind) : Prop := ∃ k ls, ks = k :: ls ∧ k ≠ .mark .gt

theorem Begun.append {ks : List Token.Kind} (h : Begun ks) (ls : List Token.Kind) : Begun (ks ++ ls) := by
  obtain ⟨k, js, rfl, hk⟩ := h
  exact ⟨k, js ++ ls, rfl, hk⟩

theorem Begun.guarded {e : Expr} {ks : List Token.Kind} (h : Begun ks) (l : Nat) : Begun (e.guarded l ks) := by
  unfold Expr.guarded
  split
  · exact ⟨_, _, rfl, nofun⟩
  · exact h

theorem Begun.head {ks : List Token.Kind} (h : Begun ks) : ∀ k ∈ ks.head?, k ≠ .mark .gt := by
  obtain ⟨k, ls, rfl, hk⟩ := h
  intro j hj
  obtain rfl := Option.some.inj hj
  exact hk

/-- The first token of a tree is no `>`, so none of its tokens can be joined with what comes before it. -/
theorem begun_tokens : (e : Expr) → Begun e.tokens
  | .int .. | .float .. | .char .. | .str .. | .var .. | .call .. => ⟨_, _, rfl, nofun⟩
  | .bool true _ | .bool false _ => ⟨_, _, rfl, nofun⟩
  | .list .. | .sized .. | .filled .. => ⟨_, _, rfl, nofun⟩
  | .binary _ a _ _ => ((begun_tokens a).guarded _).append _
  | .unary op a _ => by
    unfold tokens
    split
    · exact ((begun_tokens a).guarded 9).append _
    · exact ⟨_, _, rfl, by cases op <;> nofun⟩
  | .ternary c _ _ _ => ((begun_tokens c).guarded _).append _
  | .assign a _ _ => ((begun_tokens a).guarded _).append _
  | .compound a _ _ _ => (((begun_tokens a).guarded _).append _).append _
  | .method a _ _ _ => ((begun_tokens a).guarded _).append _
  | .index a _ _ => ((begun_tokens a).guarded _).append _

end Expr

namespace Parser

variable {ts : List Token} {e : Expr}

/-! ## Vectors -/

/-- A vector that is built from its arguments. -/
theorem Yields.vector {element : Ty} {es as : List Token} {args : List Expr} (p q r u : Pos)
    (hes : Spells es (element.print ++ [.mark .gt])) (has : ReadsAll as args)
    (he : ∀ us, vectorOf element r args us = .ok (e, us)) :
    Yields 9 (⟨.word .vector, p⟩ :: ⟨.mark .lt, q⟩ :: (es ++ ⟨.mark .lparen, r⟩ :: (as ++ [⟨.mark .rparen, u⟩]))) e := by
  refine ⟨⟨_, _, rfl, rfl⟩, fun rest c v hc n hn => ?_⟩
  simp only [List.length_cons, List.length_append, List.length_nil] at hn
  obtain ⟨n, rfl⟩ : ∃ m, n = m + 3 := ⟨n - 3, by omega⟩
  have hends : EndsType (⟨.mark .lparen, r⟩ :: (as ++ ⟨.mark .rparen, u⟩ :: rest)) :=
    .of_cons (k := .mark .lparen) ⟨nofun, nofun, nofun, nofun⟩ r _
  have hbare : Dress false [] := rfl
  have hmarks := tyMarks_eq hbare hends
  rw [List.nil_append] at hmarks
  have hargs : vectorArguments (n + 1) element r (as ++ ⟨.mark .rparen, u⟩ :: rest) = .ok (e, rest) := by
    rw [vectorArguments, bind_eq (has.arguments_eq u rest n (by omega)), bind_eq (expect_eq ..)]
    exact he rest
  have hprimary : primary (n + 2) (⟨.word .vector, p⟩ :: ⟨.mark .lt, q⟩ ::
      (es ++ ⟨.mark .lparen, r⟩ :: (as ++ ⟨.mark .rparen, u⟩ :: rest))) = .ok (e, rest) := by
    rw [primary, bind_eq (p := peek) rfl]
    dsimp only [next]
    rw [bind_eq (p := advance) rfl]
    dsimp only [Parser.rest]
    rw [bind_eq (vectorElement_eq hes (by omega) q), bind_eq hmarks, bind_eq (expect_eq ..)]
    exact hargs
  have hassoc : ⟨.word .vector, p⟩ :: ⟨.mark .lt, q⟩ :: (es ++ ⟨.mark .lparen, r⟩ :: (as ++ [⟨.mark .rparen, u⟩])) ++ rest =
      ⟨.word .vector, p⟩ :: ⟨.mark .lt, q⟩ ::
        (es ++ ⟨.mark .lparen, r⟩ :: (as ++ ⟨.mark .rparen, u⟩ :: rest)) := by simp
  rw [hassoc, suffixed, bind_eq hprimary]
  exact hc (n + 2) (by omega)

/-! ## Trees from their tokens -/

/-- What is spelled by `ks` is read at level `l` as the tree `e`, up to places. -/
def ReadBack (l : Nat) (ks : List Token.Kind) (e : Expr) : Prop :=
  ∀ ts : List Token, Spells ts ks → ∃ e', e'.erase = e.erase ∧ Yields l ts e'

/-- What is spelled by `ks` is read as the trees `es` between commas, up to places. -/
def ReadBackMore (ks : List Token.Kind) (es : List Expr) : Prop :=
  ∀ ts : List Token, Spells ts ks → ∃ es', Expr.eraseAll es' = Expr.eraseAll es ∧ ReadsMore ts es'

theorem ReadBackMore.all {es : List Expr} (h : es ≠ [] → ReadBackMore (Expr.tokensList es) es)
    (hts : Spells ts (Expr.tokensList es)) :
    ∃ es', Expr.eraseAll es' = Expr.eraseAll es ∧ ReadsAll ts es' := by
  cases es with
  | nil =>
    obtain rfl := hts.eq_nil
    exact ⟨[], rfl, .nil⟩
  | cons e es =>
    obtain ⟨es', he, hy⟩ := h (List.cons_ne_nil e es) ts hts
    exact ⟨es', he, hy.all⟩

theorem ReadBack.guarded {l : Nat} (h : ReadBack e.level e.tokens e) (hl : l ≤ 9) :
    ReadBack l (e.guarded l e.tokens) e := by
  intro ts hts
  have hlevel := e.level_le_nine
  unfold Expr.guarded at hts
  split at hts
  · obtain ⟨p, us, rfl, hus⟩ := hts.of_cons nofun
    obtain ⟨vs, q, rfl, hvs⟩ := hus.of_concat nofun
    obtain ⟨e', he, hy⟩ := h vs hvs
    exact ⟨e', he, ((hy.loosen (Nat.zero_le _) hlevel).parens p q).loosen hl (Nat.le_refl 9)⟩
  · obtain ⟨e', he, hy⟩ := h ts hts
    exact ⟨e', he, hy.loosen (by omega) hlevel⟩

theorem ReadBack.free (h : ReadBack e.level e.tokens e) : ReadBack 0 e.tokens e := by
  intro ts hts
  obtain ⟨e', he, hy⟩ := h ts hts
  exact ⟨e', he, hy.loosen (Nat.zero_le _) e.level_le_nine⟩

theorem ReadBack.operand {k : Token.Kind} (hlevel : e.level = 9) (f : Pos → Expr)
    (hf : ∀ p, (f p).erase = e.erase) (hk : startsOperand k)
    (h : ∀ p n rest, primary (n + 1) (⟨k, p⟩ :: rest) = .ok (f p, rest)) :
    ReadBack e.level [k] e := by
  intro ts hts
  have hne : k ≠ .mark .gt := by
    rintro rfl
    cases hk
  obtain ⟨p, us, rfl, hus⟩ := hts.of_cons hne
  obtain rfl := hus.eq_nil
  exact ⟨f p, hf p, hlevel ▸ .operand hk (h p)⟩

/-- The mark of a binary operator, which may be `>`, stands by itself between its operands. -/
theorem of_binary {a b : Expr} {l j : Nat} {op : BinOp}
    (h : Spells ts (a.guarded l a.tokens ++ .mark (binMark op) :: b.guarded j b.tokens)) :
    ∃ as p bs, ts = as ++ ⟨.mark (binMark op), p⟩ :: bs ∧ Spells as (a.guarded l a.tokens) ∧
      Spells bs (b.guarded j b.tokens) := by
  obtain ⟨as, us, rfl, has, hus⟩ := h.of_append ((a.ended_tokens.guarded l).apart _)
  obtain ⟨p, bs, rfl, hbs⟩ := hus.of_cons_of_head (b.begun_tokens.guarded j).head
  exact ⟨as, p, bs, rfl, has, hbs⟩

mutual

theorem readBack : (e : Expr) → e.Spelled → ReadBack e.level e.tokens e
  | .int k _, _ => .operand rfl (.int k) (fun _ => rfl) rfl fun _ _ _ => rfl
  | .float x _, _ => .operand rfl (.float x) (fun _ => rfl) rfl fun _ _ _ => rfl
  | .bool true _, _ => .operand rfl (.bool true) (fun _ => rfl) rfl fun _ _ _ => rfl
  | .bool false _, _ => .operand rfl (.bool false) (fun _ => rfl) rfl fun _ _ _ => rfl
  | .char c _, _ => .operand rfl (.char c) (fun _ => rfl) rfl fun _ _ _ => rfl
  | .str s _, _ => .operand rfl (.str s) (fun _ => rfl) rfl fun _ _ _ => rfl
  | .var name _, _ => .operand rfl (.var name) (fun _ => rfl) rfl fun _ _ _ => rfl
  | .list items _, h => by
    intro ts hts
    obtain ⟨p, us, rfl, hus⟩ := hts.of_cons nofun
    obtain ⟨as, q, rfl, has⟩ := hus.of_concat nofun
    obtain ⟨items', he, hy⟩ := ReadBackMore.all (readBackMore items h) has
    exact ⟨.list items' p, by simp only [Expr.erase, he], .list hy p q⟩
  | .sized size element _, h => by
    intro ts hts
    obtain ⟨p, us, rfl, hus⟩ := hts.of_cons nofun
    obtain ⟨q, vs, rfl, hvs⟩ := hus.of_cons nofun
    obtain ⟨es, r, ws, rfl, hes, hws⟩ := hvs.of_append_cons nofun
    obtain ⟨as, u, rfl, has⟩ := hws.of_concat nofun
    obtain ⟨size', he, hy⟩ := (readBack size h).free as has
    exact ⟨.sized size' element r, by simp only [Expr.erase, he],
      .vector p q r u hes (ReadsMore.single hy).all fun _ => rfl⟩
  | .filled size fill element _, h => by
    intro ts hts
    obtain ⟨hsize, hfill⟩ := h
    obtain ⟨p, us, rfl, hus⟩ := hts.of_cons nofun
    obtain ⟨q, vs, rfl, hvs⟩ := hus.of_cons nofun
    obtain ⟨es, r, ws, rfl, hes, hws⟩ := hvs.of_append_cons nofun
    obtain ⟨xs, u, rfl, hxs⟩ := hws.of_concat nofun
    obtain ⟨as, w, bs, rfl, has, hbs⟩ := hxs.of_append_cons nofun
    obtain ⟨size', hes', hys⟩ := (readBack size hsize).free as has
    obtain ⟨fill', hef, hyf⟩ := (readBack fill hfill).free bs hbs
    exact ⟨.filled size' fill' element r, by simp only [Expr.erase, hes', hef],
      .vector p q r u hes (ReadsMore.cons hys (.single hyf) w).all fun _ => rfl⟩
  | .call name args _, h => by
    intro ts hts
    obtain ⟨p, us, rfl, hus⟩ := hts.of_cons nofun
    obtain ⟨q, vs, rfl, hvs⟩ := hus.of_cons nofun
    obtain ⟨as, r, rfl, has⟩ := hvs.of_concat nofun
    obtain ⟨args', he, hy⟩ := ReadBackMore.all (readBackMore args h) has
    exact ⟨.call name args' p, by simp only [Expr.erase, he], .call hy name p q r⟩
  | .method a name args _, h => by
    intro ts hts
    obtain ⟨ha, hargs⟩ := h
    obtain ⟨bs, p, vs, rfl, hbs, hvs⟩ := hts.of_append_cons nofun
    obtain ⟨q, ws, rfl, hws⟩ := hvs.of_cons nofun
    obtain ⟨r, xs, rfl, hxs⟩ := hws.of_cons nofun
    obtain ⟨as, u, rfl, has⟩ := hxs.of_concat nofun
    obtain ⟨a', hea, hya⟩ := (readBack a ha).guarded (Nat.le_refl 9) bs hbs
    obtain ⟨args', he, hy⟩ := ReadBackMore.all (readBackMore args hargs) has
    exact ⟨.method a' name args' p, by simp only [Expr.erase, hea, he], hya.method hy name p q r u⟩
  | .index a i _, h => by
    intro ts hts
    obtain ⟨ha, hi⟩ := h
    obtain ⟨bs, p, vs, rfl, hbs, hvs⟩ := hts.of_append_cons nofun
    obtain ⟨is, q, rfl, his⟩ := hvs.of_concat nofun
    obtain ⟨a', hea, hya⟩ := (readBack a ha).guarded (Nat.le_refl 9) bs hbs
    obtain ⟨i', hei, hyi⟩ := (readBack i hi).free is his
    exact ⟨.index a' i' p, by simp only [Expr.erase, hea, hei], hya.index hyi p q⟩
  | .unary op a _, h => by
    intro ts hts
    have hne : Token.Kind.mark (unMark op) ≠ .mark .gt := by cases op <;> nofun
    unfold Expr.tokens at hts
    show ∃ e', _ ∧ Yields (if isSuffix op then 9 else 8) ts e'
    split at hts
    · next hop =>
      rw [if_pos hop]
      obtain ⟨bs, p, rfl, hbs⟩ := hts.of_concat hne
      obtain ⟨a', hea, hya⟩ := (readBack a h).guarded (Nat.le_refl 9) bs hbs
      refine ⟨.unary op a' p, by simp only [Expr.erase, hea], ?_⟩
      cases op
      case postInc => exact hya.postInc p
      case postDec => exact hya.postDec p
      all_goals cases hop
    · next hop =>
      rw [if_neg hop]
      obtain ⟨p, bs, rfl, hbs⟩ := hts.of_cons hne
      obtain ⟨a', hea, hya⟩ := (readBack a h).guarded (by decide) bs hbs
      exact ⟨.unary op a' p, by simp only [Expr.erase, hea], hya.before (Bool.eq_false_iff.mpr hop) p⟩
  | .binary op a b _, h => by
    intro ts hts
    obtain ⟨ha, hb⟩ := h
    have hop := level_le_five op
    obtain ⟨as, p, bs, rfl, has, hbs⟩ := of_binary hts
    obtain ⟨a', hea, hya⟩ := (readBack a ha).guarded (by omega) as has
    obtain ⟨b', heb, hyb⟩ := (readBack b hb).guarded (by omega) bs hbs
    exact ⟨.binary op a' b' p, by simp only [Expr.erase, hea, heb], hya.binary op hyb p⟩
  | .ternary c a b _, h => by
    intro ts hts
    obtain ⟨hc, ha, hb⟩ := h
    obtain ⟨cs, p, vs, rfl, hcs, hvs⟩ := hts.of_append_cons nofun
    obtain ⟨as, q, bs, rfl, has, hbs⟩ := hvs.of_append_cons nofun
    obtain ⟨c', hec, hyc⟩ := (readBack c hc).guarded (by decide) cs hcs
    obtain ⟨a', hea, hya⟩ := (readBack a ha).free as has
    obtain ⟨b', heb, hyb⟩ := (readBack b hb).guarded (by decide) bs hbs
    exact ⟨.ternary c' a' b' p, by simp only [Expr.erase, hec, hea, heb], hyc.ternary hya hyb p q⟩
  | .assign a b _, h => by
    intro ts hts
    obtain ⟨ha, hb⟩ := h
    obtain ⟨as, p, bs, rfl, has, hbs⟩ := hts.of_append_cons nofun
    obtain ⟨a', hea, hya⟩ := (readBack a ha).guarded (by decide) as has
    obtain ⟨b', heb, hyb⟩ := (readBack b hb).free bs hbs
    exact ⟨.assign a' b' p, by simp only [Expr.erase, hea, heb], hya.assign hyb p⟩
  | .compound a op b _, h => by
    intro ts hts
    obtain ⟨ha, hop, hb⟩ := h
    obtain ⟨m, hm⟩ := Option.isSome_iff_exists.mp hop
    have hne : Token.Kind.mark m ≠ .mark .gt := by
      intro hgt
      obtain rfl := Token.Kind.mark.inj hgt
      cases op <;> cases hm
    rw [Expr.tokens, hm, List.append_assoc] at hts
    have hts : Spells ts (Expr.guarded 1 a a.tokens ++ .mark m :: b.tokens) := hts
    obtain ⟨as, p, bs, rfl, has, hbs⟩ := hts.of_append_cons hne
    obtain ⟨a', hea, hya⟩ := (readBack a ha).guarded (by decide) as has
    obtain ⟨b', heb, hyb⟩ := (readBack b hb).free bs hbs
    exact ⟨.compound a' op b' p, by simp only [Expr.erase, hea, heb], hya.compound hm hyb p⟩

theorem readBackMore : (es : List Expr) → Expr.SpelledAll es → es ≠ [] →
    ReadBackMore (Expr.tokensList es) es
  | [], _, hne => absurd rfl hne
  | [e], h, _ => by
    intro ts hts
    rw [Expr.tokensList, Expr.tokensMore, List.append_nil] at hts
    obtain ⟨e', he, hy⟩ := (readBack e h.1).free ts hts
    exact ⟨[e'], by simp only [Expr.eraseAll, he], .single hy⟩
  | e :: f :: es, h, _ => by
    intro ts hts
    have hts : Spells ts (e.tokens ++ .mark .comma :: Expr.tokensList (f :: es)) := hts
    obtain ⟨as, p, bs, rfl, has, hbs⟩ := hts.of_append_cons nofun
    obtain ⟨e', he, hy⟩ := (readBack e h.1).free as has
    obtain ⟨es', hes, hmore⟩ := readBackMore (f :: es) h.2 (List.cons_ne_nil f es) bs hbs
    exact ⟨e' :: es', by rw [Expr.eraseAll, Expr.eraseAll, he, hes], .cons hy hmore p⟩

end

end Parser

end CallTrace.Surface
