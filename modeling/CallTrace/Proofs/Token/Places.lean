import CallTrace.Proofs.LineShift.Tokens
import Mathlib.Data.Prod.Lex

/-! # Places of tokens

* Places are ordered as in the text, by line and then by column.
* `Tokens.From p ts`: the tokens stand at `p` or behind it, each behind the one before it.
* `Scan.scan_places`, `Scan.scan_ends`: so do the tokens of a text, the last of which is the end of the file.
-/

namespace CallTrace
set_option autoImplicit false

instance : Preorder Pos := Preorder.lift fun p => toLex (p.line, p.column)

namespace Pos

theorem lt_iff {p q : Pos} : p < q ↔ p.line < q.line ∨ p.line = q.line ∧ p.column < q.column :=
  Prod.Lex.lt_iff

theorem lt_right (p : Pos) {n : Nat} (hn : 0 < n) : p < p.right n :=
  lt_iff.mpr (.inr ⟨rfl, Nat.lt_add_of_pos_right hn⟩)

theorem le_right (p : Pos) (n : Nat) : p ≤ p.right n := by
  cases n with
  | zero => exact le_refl p
  | succ n => exact (p.lt_right n.succ_pos).le

theorem lt_next (p : Pos) (c : Char) : p < p.next c := by
  unfold next
  split
  · exact lt_iff.mpr (.inl (Nat.lt_succ_self _))
  · exact p.lt_right Nat.one_pos

end Pos

/-- The tokens stand at `p` or behind it, each behind the one before it. -/
def Tokens.From (p : Pos) (ts : List Token) : Prop :=
  (∀ t ∈ ts, p ≤ t.pos) ∧ ts.Pairwise fun t u => t.pos < u.pos

namespace Tokens.From

variable {p q : Pos} {t : Token} {ts : List Token}

theorem of_le (hpq : p ≤ q) (h : From q ts) : From p ts :=
  ⟨fun t ht => le_trans hpq (h.1 t ht), h.2⟩

theorem cons (hp : p ≤ t.pos) (hq : t.pos < q) (h : From q ts) : From p (t :: ts) := by
  have hbehind : ∀ u ∈ ts, t.pos < u.pos := fun u hu => lt_of_lt_of_le hq (h.1 u hu)
  refine ⟨fun u hu => ?_, List.pairwise_cons.mpr ⟨hbehind, h.2⟩⟩
  rcases List.mem_cons.mp hu with rfl | hu
  · exact hp
  · exact le_trans hp (hbehind u hu).le

theorem single (hp : p ≤ t.pos) : From p [t] :=
  ⟨fun _ hu => List.eq_of_mem_singleton hu ▸ hp, List.pairwise_singleton ..⟩

/-- A comment that is left open was opened in front of what follows the gap. -/
theorem behind_gap {unclosed : Option Pos} (hpq : p ≤ q) (h : From q ts) :
    (∀ r ∈ unclosed, p ≤ r ∧ r < q) → From p ((match unclosed with
      | some opened => [⟨.invalid .unterminatedComment, opened⟩]
      | none => []) ++ ts) := by
  intro hopened
  cases unclosed with
  | none => exact h.of_le hpq
  | some r =>
    obtain ⟨hle, hlt⟩ := hopened r rfl
    exact h.cons hle hlt

end Tokens.From

namespace Scan

/-! ## Every reader goes on in the text -/

/-- A gap that began at `l` or behind it, seen from `p`. -/
def Gap.Since (l p : Pos) : Gap → Prop
  | .block opened => l ≤ opened ∧ opened < p
  | _ => l ≤ p

theorem Gap.Since.of_lt {l p q : Pos} {gap : Gap} (h : gap.Since l p) (hpq : p < q) : gap.Since l q := by
  cases gap with
  | block opened => exact ⟨h.1, h.2.trans hpq⟩
  | _ => exact le_trans h hpq.le

/-- A skip goes on, and a comment that is left open was opened on its way. -/
theorem skip_places (l : Pos) (gap : Gap) (cs : List Char) (p : Pos) (h : gap.Since l p) :
    l ≤ (skip gap cs p).pos ∧ ∀ q ∈ (skip gap cs p).value, l ≤ q ∧ q < (skip gap cs p).pos := by
  fun_induction skip gap cs p with
  | case1 opened p =>
    exact ⟨le_trans h.1 h.2.le, fun q hq => Option.some.inj hq ▸ h⟩
  | case2 gap p hgap =>
    refine ⟨?_, fun q hq => absurd hq (Option.not_mem_none q)⟩
    cases gap with
    | block opened => exact absurd rfl (hgap opened)
    | _ => exact h
  | case3 c cs p ih =>
    have hnext : l ≤ p.next c := le_trans h (p.lt_next c).le
    refine ih ?_
    split <;> exact hnext
  | case4 opened cs p ih => exact ih (le_trans (h.1.trans h.2.le) (p.le_right 2))
  | case5 opened c cs p hend ih => exact ih (h.of_lt (p.lt_next c))
  | case6 cs p ih => exact ih (le_trans h (p.le_right 2))
  | case7 cs p ih => exact ih ⟨h, p.lt_right Nat.two_pos⟩
  | case8 c cs p hline hblock hc ih | case9 cs p hline hblock hc ih => exact ih (le_trans h (p.lt_next _).le)
  | case10 c cs p hline hblock hc hhash => exact ⟨h, fun q hq => absurd hq (Option.not_mem_none q)⟩

theorem stringBody_places (done cs : List Char) (p : Pos) : p ≤ (stringBody done cs p).pos := by
  have hescape (p : Pos) (c : Char) : p ≤ (p.right 1).next c := le_trans (p.le_right 1) ((p.right 1).lt_next c).le
  fun_induction stringBody done cs p with
  | case1 | case4 => exact le_refl _
  | case2 done c cs p d hd ih => exact le_trans (hescape p c) ih
  | case3 done c cs p hd => exact hescape p c
  | case5 | case6 => exact Pos.le_right _ 1
  | case7 done c cs p _ _ _ _ ih => exact le_trans (p.le_right 1) ih

theorem charEnd_places (c? : Option Char) (cs : List Char) (p : Pos) : p ≤ (charEnd c? cs p).pos := by
  unfold charEnd
  split
  · exact p.le_right 1
  · exact le_refl p

theorem charBody_places (cs : List Char) (p : Pos) : p ≤ (charBody cs p).pos := by
  fun_cases charBody cs p with
  | case1 => exact charEnd_places none [] p
  | case2 => exact le_trans (p.le_right 1) (charEnd_places none [] _)
  | case3 c cs =>
    exact le_trans (le_trans (p.le_right 1) ((p.right 1).lt_next c).le) (charEnd_places (unescape c) cs _)
  | case4 c cs hend hescape => exact le_trans (p.lt_next c).le (charEnd_places _ cs _)

/-- A number starts with a digit or with a point, and has a character at least. -/
theorem number_places {c : Char} (cs : List Char) (h : Text.isDigit c ∨ c = '.') (p : Pos) :
    p < (number (c :: cs) p).pos := by
  unfold number
  dsimp only
  split
  · exact p.lt_right (by omega)
  · next hpoint =>
    refine p.lt_right (Nat.add_pos_left ?_ _)
    rcases h with h | rfl
    · rw [List.takeWhile_cons, if_pos h]
      exact Nat.succ_pos _
    · exact absurd (List.dropWhile_cons_of_neg (by decide)) (hpoint cs)

theorem markKind_places (c : Char) (cs : List Char) (p : Pos) : p < (markKind c cs p).pos := by
  unfold markKind
  split
  · exact p.lt_right Nat.two_pos
  · exact p.lt_right Nat.one_pos

/-- A name stands where it starts or, behind `std::`, further on. -/
theorem name_places (fuel : Nat) {c : Char} (cs : List Char) (h : startsName c) (p : Pos) :
    p ≤ (name fuel (c :: cs) p).value.pos ∧ (name fuel (c :: cs) p).value.pos < (name fuel (c :: cs) p).pos := by
  have hlength : 0 < ((c :: cs).takeWhile inName).length := by
    rw [List.takeWhile_cons, if_pos (by rw [inName, h, Bool.true_or])]
    exact Nat.succ_pos _
  have hend : p < p.right ((c :: cs).takeWhile inName).length := p.lt_right hlength
  induction fuel generalizing c cs p with
  | zero =>
    unfold name
    dsimp only
    generalize (String.ofList ((c :: cs).takeWhile inName) == "std") = std, (c :: cs).dropWhile inName = r
    split
    · next hfuel => cases hfuel
    · exact ⟨le_refl p, lt_of_lt_of_le hend (Pos.le_right _ 2)⟩
    · exact ⟨le_refl p, hend⟩
  | succ fuel ih =>
    unfold name
    dsimp only
    generalize (String.ofList ((c :: cs).takeWhile inName) == "std") = std, (c :: cs).dropWhile inName = r
    split
    · next fuel₁ d t hfuel =>
      cases hfuel
      have hcolons := lt_of_lt_of_le hend (Pos.le_right _ 2)
      split
      · next hd =>
        have hlength' : 0 < ((d :: t).takeWhile inName).length := by
          rw [List.takeWhile_cons, if_pos (by rw [inName, hd, Bool.true_or])]
          exact Nat.succ_pos _
        obtain ⟨hle, hlt⟩ := ih t hd _ hlength' (Pos.lt_right _ hlength')
        exact ⟨le_trans hcolons.le hle, hlt⟩
      · exact ⟨le_refl p, hcolons.trans (Pos.lt_next _ d)⟩
    · exact ⟨le_refl p, lt_of_lt_of_le hend (Pos.le_right _ 2)⟩
    · exact ⟨le_refl p, hend⟩

theorem lexeme_places (fuel : Nat) (c : Char) (cs : List Char) (p : Pos) :
    p ≤ (lexeme fuel c cs p).value.pos ∧ (lexeme fuel c cs p).value.pos < (lexeme fuel c cs p).pos := by
  have hquote : p < p.right 1 := p.lt_right Nat.one_pos
  unfold lexeme
  dsimp only
  split
  · exact ⟨le_refl p, lt_of_lt_of_le hquote (stringBody_places [] cs _)⟩
  split
  · exact ⟨le_refl p, lt_of_lt_of_le hquote (charBody_places cs _)⟩
  split
  · next h =>
    have hfirst : Text.isDigit c ∨ c = '.' := by
      rcases Bool.or_eq_true _ _ ▸ h with h | h
      · exact .inl h
      · exact .inr (of_decide_eq_true (Bool.and_eq_true _ _ ▸ h).1)
    exact ⟨le_refl p, number_places cs hfirst p⟩
  split
  · next h => exact name_places fuel cs h p
  · exact ⟨le_refl p, markKind_places c cs p⟩

/-! ## Whole texts -/

theorem tokensFrom_places (fuel : Nat) (cs : List Char) (p : Pos) : Tokens.From p (tokensFrom fuel cs p) := by
  induction fuel generalizing cs p with
  | zero => exact .single (le_refl p)
  | succ fuel ih =>
    obtain ⟨hgap, hopened⟩ := skip_places p .blank cs p (le_refl p)
    unfold tokensFrom
    dsimp only
    generalize skip .blank cs p = gap at hgap hopened ⊢
    refine .behind_gap hgap ?_ hopened
    split
    · exact .single (le_refl _)
    · next c t hrest =>
      obtain ⟨hle, hlt⟩ := lexeme_places fuel c t gap.pos
      exact .cons hle hlt (ih _ _)

/-- The tokens of a text stand behind one another. -/
theorem scan_places (source : String) : (scan source).Pairwise fun t u => t.pos < u.pos :=
  (tokensFrom_places _ _ .start).2

/-- The end of the file is the last token of a text, and no other. -/
theorem scan_ends (source : String) :
    ∃ ts p, scan source = ts ++ [⟨.eof, p⟩] ∧ ∀ t ∈ ts, t.kind ≠ .eof := by
  have hends {k : Nat} {ts us : List Token} (h : Tokens.Moved k ts us) :
      ∃ vs p, ts = vs ++ [⟨.eof, p⟩] ∧ ∀ t ∈ vs, t.kind ≠ .eof := by
    induction h with
    | @eof p hp => exact ⟨[], p, rfl, nofun⟩
    | @cons kind p ts us hkind hp h ih =>
      obtain ⟨vs, q, rfl, hvs⟩ := ih
      exact ⟨⟨kind, p⟩ :: vs, q, rfl, List.forall_mem_cons.mpr ⟨hkind, hvs⟩⟩
  exact hends (tokensFrom_moved (k := 0) (Nat.lt_succ_self _) (Nat.lt_succ_self _) ⟨0, 1⟩)

end Scan

end CallTrace
