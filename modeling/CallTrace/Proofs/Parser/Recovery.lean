import CallTrace.Proofs.Parser.Tandem
import CallTrace.Surface.Parser.Statement

/-! # Recovery in tandem

* `Parser.skipConstruct_shorter`: a skip takes a token, unless the file ends or it stops before a brace.
* `Stmt.Settled`: no statement was given up because fuel ran out.
* `Parser.recover_tandem`: what cannot be read is skipped alike, up to a place between constructs.
-/

namespace CallTrace.Surface
set_option autoImplicit false

/-! ## Settled statements -/

namespace Stmt

mutual

/-- No statement in this one was given up because fuel ran out. -/
def Settled : Stmt → Prop
  | .ifThen _ body _ | .whileLoop _ body _ | .doWhile body _ _ | .forLoop _ _ _ body _ | .block body _ => SettledAll body
  | .ifElse _ yes no _ => SettledAll yes ∧ SettledAll no
  | .unsupported _ reason _ => reason ≠ ParseError.outOfFuel.message
  | _ => True

/-- No statement in these was given up because fuel ran out. -/
def SettledAll : List Stmt → Prop
  | [] => True
  | s :: ss => Settled s ∧ SettledAll ss

end

end Stmt

/-- A text starts with a character. -/
def Opens (s : String) (c : Char) : Prop := s.toList.head? = some c

theorem Opens.append {s : String} {c : Char} (h : Opens s c) (t : String) : Opens (s ++ t) c := by
  unfold Opens
  rw [String.toList_append, List.head?_append, h]
  rfl

theorem Opens.ne {s t : String} {c d : Char} (h : Opens s c) (h' : Opens t d) (hcd : c ≠ d) : s ≠ t := by
  rintro rfl
  exact hcd (Option.some.inj (h.symm.trans h'))

theorem opens_fuel : Opens ParseError.outOfFuel.message 'N' := rfl

/-- The message about fuel is that of no other error. -/
theorem ParseError.message_ne {e : ParseError} (he : e ≠ .outOfFuel) : e.message ≠ ParseError.outOfFuel.message := by
  have hopens {c : Char} (h : Opens e.message c) (hc : c ≠ 'N') : e.message ≠ ParseError.outOfFuel.message :=
    h.ne opens_fuel hc
  cases e with
  | outOfFuel => exact absurd rfl he
  | nestedFunction => decide
  | outputWithoutItems => exact hopens (c := 'E') rfl (by decide)
  | constructorArguments => exact hopens (c := 'C') rfl (by decide)
  | vectorArguments => exact hopens (c := 'v') rfl (by decide)
  | calleeNotName => exact hopens (c := 'F') rfl (by decide)
  | missingMark m place found =>
    have hlit : Opens "Expected '" 'E' := rfl
    exact hopens (((((hlit.append _).append _).append _).append _).append _) (by decide)
  | missingWord k place found =>
    have hlit : Opens "Expected '" 'E' := rfl
    exact hopens (((((hlit.append _).append _).append _).append _).append _) (by decide)
  | missingName found =>
    have hlit : Opens "Expected identifier, found " 'E' := rfl
    exact hopens (hlit.append _) (by decide)
  | missingType found =>
    have hlit : Opens "Expected type, found " 'E' := rfl
    exact hopens (hlit.append _) (by decide)
  | unexpected found =>
    have hlit : Opens "Unexpected token: " 'U' := rfl
    exact hopens (hlit.append _) (by decide)
  | fault f =>
    cases f with
    | integerTooLarge digits =>
      have hlit : Opens "integer literal too large: " 'i' := rfl
      exact hopens (hlit.append _) (by decide)
    | unexpected c =>
      have hlit : Opens "unexpected character '" 'u' := rfl
      exact hopens ((hlit.append _).append _) (by decide)
    | malformedChar => exact hopens (c := 'm') rfl (by decide)
    | lonePipe => exact hopens (c := 'b') rfl (by decide)
    | nameExpected => exact hopens (c := 'e') rfl (by decide)
    | _ => exact hopens (c := 'u') rfl (by decide)

namespace Parser

variable {w : Tails} {σ : Spot} {d : Nat} {ts us : List Token}

/-! ## Skipping -/

/-- Whether a skip ends at a token. -/
def EndsSkip (braces parens : Nat) : Token.Kind → Prop
  | .eof => True
  | .mark .semicolon => braces = 0 ∧ parens = 0
  | .mark .rbrace => braces = 0 ∨ braces = 1 ∧ parens = 0
  | _ => False

/-- A token at which a skip does not end is passed, and counted if it is a brace. -/
theorem skipConstruct_pass {braces parens : Nat} {t : Token} (h : ¬ EndsSkip braces parens t.kind) :
    ∃ braces' parens', braceStep braces t.kind = some braces' ∧ ∀ first line ts,
      skipConstruct braces parens first line (t :: ts) = skipConstruct braces' parens' false t.pos.line ts := by
  obtain ⟨k, p⟩ := t
  cases k with
  | eof => exact absurd trivial h
  | mark m =>
    cases m
    case lbrace => exact ⟨braces + 1, parens, rfl, fun _ _ _ => rfl⟩
    case lparen => exact ⟨braces, parens + 1, rfl, fun _ _ _ => rfl⟩
    case rparen => exact ⟨braces, parens - 1, rfl, fun _ _ _ => rfl⟩
    case semicolon =>
      have hne : ¬ (braces = 0 ∧ parens = 0) := h
      refine ⟨braces, parens, rfl, fun first line ts => ?_⟩
      rw [skipConstruct.eq_def]
      exact if_neg hne
    case rbrace =>
      have hne : ¬ (braces = 0 ∨ braces = 1 ∧ parens = 0) := h
      obtain ⟨braces, rfl⟩ : ∃ b, braces = b + 1 := ⟨braces - 1, by omega⟩
      refine ⟨braces, parens, rfl, fun first line ts => ?_⟩
      rw [skipConstruct.eq_def]
      dsimp only
      rw [if_neg (by omega), if_neg (by omega)]
      rfl
    all_goals exact ⟨braces, parens, rfl, fun _ _ _ => rfl⟩
  | _ => exact ⟨braces, parens, rfl, fun _ _ _ => rfl⟩

theorem skipConstruct_semicolon (first : Bool) (line : Nat) (p : Pos) (ts : List Token) :
    skipConstruct 0 0 first line (⟨.mark .semicolon, p⟩ :: ts) = ⟨p.line, ts⟩ := rfl

theorem skipConstruct_stay (parens line : Nat) (p : Pos) (ts : List Token) :
    skipConstruct 0 parens false line (⟨.mark .rbrace, p⟩ :: ts) = ⟨line, ⟨.mark .rbrace, p⟩ :: ts⟩ := rfl

/-- The brace that closes the last open one is skipped, with a semicolon behind it. -/
theorem skipConstruct_close (first : Bool) (line : Nat) (p : Pos) (ts : List Token) :
    (∃ q us, ts = ⟨.mark .semicolon, q⟩ :: us ∧
      skipConstruct 1 0 first line (⟨.mark .rbrace, p⟩ :: ts) = ⟨q.line, us⟩) ∨
    ((∀ t ∈ ts.head?, t.kind ≠ .mark .semicolon) ∧
      skipConstruct 1 0 first line (⟨.mark .rbrace, p⟩ :: ts) = ⟨p.line, ts⟩) := by
  rw [skipConstruct.eq_def]
  dsimp only
  rw [if_neg (by decide), if_pos ⟨rfl, rfl⟩]
  split
  · next q us => exact .inl ⟨q, us, rfl, rfl⟩
  · next hne =>
    refine .inr ⟨fun t ht hk => ?_, rfl⟩
    obtain ⟨us, rfl⟩ := List.head?_eq_some_iff.mp ht
    obtain ⟨k, q⟩ := t
    obtain rfl : k = _ := hk
    exact hne q us rfl

theorem skipConstruct_rest_le (braces parens : Nat) (first : Bool) (line : Nat) (ts : List Token) :
    (skipConstruct braces parens first line ts).rest.length ≤ ts.length := by
  fun_induction skipConstruct braces parens first line ts <;> simp_all <;> omega

/-- A skip takes the token that comes next, unless the file ends. -/
theorem skipConstruct_shorter {t : Token} (ht : t.kind ≠ .eof) (line : Nat) (ts : List Token) :
    (skipConstruct 0 0 true line (t :: ts)).rest.length ≤ ts.length := by
  by_cases hends : EndsSkip 0 0 t.kind
  · obtain ⟨k, p⟩ := t
    cases k with
    | eof => exact absurd rfl ht
    | mark m =>
      cases m
      case rbrace | semicolon => exact Nat.le_refl _
      all_goals exact absurd hends id
    | _ => exact absurd hends id
  · obtain ⟨braces, parens, -, hpass⟩ := skipConstruct_pass hends
    rw [hpass]
    exact skipConstruct_rest_le ..

/-- What is skipped stands before the tokens that are left, without the end of the file. -/
theorem skipConstruct_eq_append (braces parens : Nat) (first : Bool) (line : Nat) (ts : List Token) :
    ∃ ws, ts = ws ++ (skipConstruct braces parens first line ts).rest ∧ ∀ t ∈ ws, t.kind ≠ .eof := by
  have hcons {t : Token} {ts us : List Token} (ht : t.kind ≠ .eof)
      (h : ∃ ws, ts = ws ++ us ∧ ∀ t ∈ ws, t.kind ≠ .eof) : ∃ ws, t :: ts = ws ++ us ∧ ∀ t ∈ ws, t.kind ≠ .eof := by
    obtain ⟨ws, rfl, hws⟩ := h
    exact ⟨t :: ws, rfl, List.forall_mem_cons.mpr ⟨ht, hws⟩⟩
  have hnil (us : List Token) : ∃ ws, us = ws ++ us ∧ ∀ t ∈ ws, t.kind ≠ .eof := ⟨[], rfl, nofun⟩
  fun_induction skipConstruct braces parens first line ts with
  | case1 | case2 | case5 => exact hnil _
  | case4 parens line t ts ht | case7 _ _ _ _ t ts ht | case11 _ _ _ _ t ts ht =>
    exact hcons (by rw [ht]; nofun) (hnil ts)
  | case6 _ _ _ _ t ht _ _ p us => exact hcons (by rw [ht]; nofun) (hcons nofun (hnil us))
  | case3 _ _ _ _ t ts ht ih | case9 _ _ _ _ t ts ht ih | case10 _ _ _ _ t ts ht ih => exact hcons (by rw [ht]; nofun) ih
  | case8 _ _ _ _ t ts ht _ _ ih => exact hcons (by rw [ht]; nofun) ih
  | case12 _ _ _ _ t ts ht _ ih => exact hcons (by rw [ht]; nofun) ih
  | case13 _ _ _ _ t ts heof _ _ _ _ _ ih => exact hcons heof ih

/-- How a skip goes from `ts` and from `us`, inside of `d` braces and those that it has seen open. -/
structure SkipsTo (w : Tails) (σ : Spot) (d : Nat) (ts us : List Token) (s s' : Skipped) : Prop where
  line_eq : s'.line = s.line
  twin : Twin w (.plain d) s.rest s'.rest
  shorter : s'.rest.length ≤ us.length
  takes : ∃ ws, ts = ws ++ s.rest ∧ (∀ t ∈ ws, t.kind ≠ .eof) ∧
    (usingClosed σ.inUsing ws → AtEof s.rest ∨ braceDepth σ.braces ws = some d)

/-- A skip that goes on behind one more token. -/
theorem SkipsTo.cons {t : Token} {s s' : Skipped} (heof : t.kind ≠ .eof)
    (hd : braceStep σ.braces t.kind = some (σ.step t.kind).braces) (h : SkipsTo w (σ.step t.kind) d ts us s s')
    {vs : List Token} (hvs : us.length ≤ vs.length) : SkipsTo w σ d (t :: ts) vs s s' := by
  obtain ⟨ws, rfl, hne, hdepth⟩ := h.takes
  refine ⟨h.line_eq, h.twin, Nat.le_trans h.shorter hvs, t :: ws, rfl, List.forall_mem_cons.mpr ⟨heof, hne⟩,
    fun hclosed => ?_⟩
  rw [usingClosed, Bool.and_eq_true] at hclosed
  rw [braceDepth, hd]
  exact hdepth hclosed.2

/-- A skip that stops. -/
theorem SkipsTo.stay (h : Twin w (.plain d) ts us) (line : Nat) (hd : AtEof ts ∨ σ.braces = d) :
    SkipsTo w σ d ts us ⟨line, ts⟩ ⟨line, us⟩ :=
  ⟨rfl, h, Nat.le_refl _, [], rfl, nofun, fun _ => hd.imp_right (congrArg some)⟩

/-- Between constructs a brace or a semicolon steps to the same spot as anywhere else inside of as many braces. -/
theorem Spot.step_plain {m : Mark} (hm : isBrace (.mark m) ∨ m = .semicolon) (h : σ.braces = d) :
    σ.step (.mark m) = (Spot.plain d).step (.mark m) := by
  obtain ⟨ph, b, u⟩ := σ
  obtain rfl : b = d := h
  cases m <;> first | rfl | (rcases hm with hm | hm <;> cases hm)

theorem Spot.step_braces {k : Token.Kind} {b b' : Nat} (hd : σ.braces = d + b) (hb : braceStep b k = some b') :
    braceStep σ.braces k = some (d + b') ∧ (σ.step k).braces = d + b' := by
  have hstep : braceStep σ.braces k = some (d + b') := by
    rw [hd]
    cases k with
    | mark m =>
      cases m
      case rbrace =>
        cases b with
        | zero => cases hb
        | succ b =>
          cases hb
          rfl
      all_goals
        cases hb
        rfl
    | _ =>
      cases hb
      rfl
  refine ⟨hstep, ?_⟩
  show (braceStep σ.braces k).getD 0 = _
  rw [hstep]
  rfl

/-- A skip ends with a semicolon. -/
theorem SkipsTo.semicolon {p : Pos} {first : Bool} {line : Nat} (hd : σ.braces = d)
    (h : Twin w (σ.step (.mark .semicolon)) ts us) :
    SkipsTo w σ d (⟨.mark .semicolon, p⟩ :: ts) (⟨.mark .semicolon, p⟩ :: us)
      (skipConstruct 0 0 first line (⟨.mark .semicolon, p⟩ :: ts))
      (skipConstruct 0 0 first line (⟨.mark .semicolon, p⟩ :: us)) := by
  have hstep : σ.step (.mark .semicolon) = .plain d := Spot.step_plain (.inr rfl) hd
  rw [skipConstruct_semicolon, skipConstruct_semicolon]
  have hrest : SkipsTo w (σ.step (.mark .semicolon)) d ts us ⟨p.line, ts⟩ ⟨p.line, us⟩ := by
    rw [hstep] at h ⊢
    exact .stay h p.line (.inr rfl)
  exact .cons (t := ⟨.mark .semicolon, p⟩) (by nofun) rfl hrest (Nat.le_succ _)

/-- A skip stops before a brace that closes none of its own. -/
theorem SkipsTo.brace {p : Pos} {parens line : Nat} (hd : σ.braces = d)
    (hallow : w.Allows σ (.mark .rbrace)) (h : Twin w (σ.step (.mark .rbrace)) ts us) :
    SkipsTo w σ d (⟨.mark .rbrace, p⟩ :: ts) (⟨.mark .rbrace, p⟩ :: us)
      (skipConstruct 0 parens false line (⟨.mark .rbrace, p⟩ :: ts))
      (skipConstruct 0 parens false line (⟨.mark .rbrace, p⟩ :: us)) := by
  have hallow' : w.Allows (.plain d) (.mark .rbrace) :=
    fun hinner hbrace => ⟨rfl, fun hk => hd ▸ (hallow hinner hbrace).2 hk⟩
  rw [Spot.step_plain (.inl rfl) hd] at h
  rw [skipConstruct_stay, skipConstruct_stay]
  exact .stay (.cons (t := ⟨.mark .rbrace, p⟩) (by nofun) hallow' h) line (.inr hd)

/-- A skip ends with the brace that closes the last open one, and with a semicolon that comes next. -/
theorem SkipsTo.close {p : Pos} (hd : σ.braces = d + 1) (first : Bool) (line : Nat)
    (h : Twin w (σ.step (.mark .rbrace)) ts us) :
    SkipsTo w σ d (⟨.mark .rbrace, p⟩ :: ts) (⟨.mark .rbrace, p⟩ :: us)
      (skipConstruct 1 0 first line (⟨.mark .rbrace, p⟩ :: ts))
      (skipConstruct 1 0 first line (⟨.mark .rbrace, p⟩ :: us)) := by
  have hlast : braceStep 1 (.mark .rbrace) = some 0 := rfl
  obtain ⟨hbrace, hbraces⟩ := Spot.step_braces hd hlast
  have hstep : σ.step (.mark .rbrace) = .plain d := Spot.step_plain (d := d + 1) (.inl rfl) hd
  have hcons {s s' : Skipped} (h : SkipsTo w (.plain d) d ts us s s') :
      SkipsTo w σ d (⟨.mark .rbrace, p⟩ :: ts) (⟨.mark .rbrace, p⟩ :: us) s s' :=
    .cons (t := ⟨.mark .rbrace, p⟩) (by nofun) (hbrace.trans (congrArg some hbraces.symm)) (hstep ▸ h) (Nat.le_succ _)
  rw [hstep] at h
  rcases skipConstruct_close first line p ts with ⟨q, vs, rfl, hskip⟩ | ⟨hne, hskip⟩
  · rcases skipConstruct_close first line p us with ⟨q', ws, rfl, hskip'⟩ | ⟨hne, -⟩
    · obtain ⟨t, ts', us', hts, hus, -⟩ := h.head_eq (Spot.plain_not_closing d)
      obtain ⟨rfl, rfl⟩ := List.cons.inj hts
      obtain ⟨hq, rfl⟩ := List.cons.inj hus
      cases hq
      rw [hskip, hskip']
      have hsemicolon : Takeable (.plain d) (.plain d) (.mark .semicolon) := takeable_mark rfl
      obtain ⟨htwin, -⟩ := hsemicolon.take h
      have hrest : SkipsTo w (.plain d) d vs ws ⟨q.line, vs⟩ ⟨q.line, ws⟩ := .stay htwin q.line (.inr rfl)
      exact hcons (.cons (t := ⟨.mark .semicolon, q⟩) (by nofun) rfl hrest (Nat.le_succ _))
    · obtain ⟨t, ts', us', hts, rfl, -⟩ := h.head_eq (Spot.plain_not_closing d)
      obtain ⟨rfl, -⟩ := List.cons.inj hts
      exact absurd rfl (hne _ rfl)
  · rcases skipConstruct_close first line p us with ⟨q', ws, rfl, -⟩ | ⟨-, hskip'⟩
    · obtain ⟨t, ts', us', rfl, hus, -⟩ := h.head_eq (Spot.plain_not_closing d)
      obtain ⟨rfl, -⟩ := List.cons.inj hus
      exact absurd rfl (hne _ rfl)
    · rw [hskip, hskip']
      exact hcons (.stay h p.line (.inr rfl))

/-- From tokens that are read alike a skip goes to tokens that are read alike. -/
theorem twin_skipConstruct (h : Twin w σ ts us) (braces parens : Nat) (first : Bool) (line : Nat)
    (hd : σ.braces = d + braces) (hfirst : first → braces = 0 → ∀ t ∈ ts.head?, t.kind ≠ .mark .rbrace) :
    SkipsTo w σ d ts us (skipConstruct braces parens first line ts) (skipConstruct braces parens first line us) := by
  induction h generalizing braces parens first line with
  | @stop σ t hstops =>
    obtain ⟨k, p⟩ := t
    rcases hstops with hk | ⟨hinner, hk, hbraces, husing⟩ <;> obtain rfl : k = _ := hk
    · exact .stay (.stop (.inl rfl)) line (.inl ⟨_, _, rfl, rfl⟩)
    · obtain ⟨rfl, rfl⟩ : d = 0 ∧ braces = 0 := by omega
      cases first with
      | true => exact absurd rfl (hfirst rfl rfl _ rfl)
      | false => exact .stay (.stop (.inr ⟨hinner, rfl, rfl, rfl⟩)) line (.inr hbraces)
  | @split σ hsplits p ts us hclosing h ih =>
    have hskip := ih braces parens false p.line hd (fun h => nomatch h)
    exact .cons (t := ⟨.mark .gtGt, p⟩) (by nofun) rfl hskip (by simp only [List.length_cons]; omega)
  | @cons σ t ts us heof hallow h ih =>
    by_cases hends : EndsSkip braces parens t.kind
    · obtain ⟨k, p⟩ := t
      cases k with
      | eof => exact absurd rfl heof
      | mark m =>
        cases m
        case semicolon =>
          obtain ⟨rfl, rfl⟩ := hends
          exact .semicolon hd h
        case rbrace =>
          rcases hends with rfl | ⟨rfl, rfl⟩
          · cases first with
            | true => exact absurd rfl (hfirst rfl rfl _ rfl)
            | false => exact .brace hd hallow h
          · exact .close hd first line h
        all_goals exact absurd hends id
      | _ => exact absurd hends id
    · obtain ⟨braces', parens', hb, hpass⟩ := skipConstruct_pass hends
      obtain ⟨hstep, hd'⟩ := Spot.step_braces hd hb
      rw [hpass, hpass]
      have hskip := ih braces' parens' false t.pos.line hd' (fun h => nomatch h)
      exact .cons heof (hstep.trans (congrArg some hd'.symm)) hskip (Nat.le_succ _)

/-! ## Recovery -/

/-- A construct that cannot be read takes the token that comes next. -/
theorem recover_takes (lines : List String) (e : ParseError) {t : Token} (ht : t.kind ≠ .eof) (ts : List Token) :
    ∃ ws, ws ≠ [] ∧ t :: ts = ws ++ (recover lines e (t :: ts)).2 ∧ ∀ u ∈ ws, u.kind ≠ .eof := by
  obtain ⟨ws, hws, hne⟩ := skipConstruct_eq_append 0 0 true t.pos.line (t :: ts)
  refine ⟨ws, ?_, hws, hne⟩
  rintro rfl
  have hshorter := skipConstruct_shorter ht t.pos.line ts
  rw [List.nil_append] at hws
  rw [← hws] at hshorter
  exact absurd hshorter (Nat.not_succ_le_self _)

/-- What cannot be read is skipped alike. -/
theorem recover_agreed (lines : List String) {e : ParseError} (he : e ≠ .outOfFuel) {t : Token} (ht : t.kind ≠ .eof)
    (hbrace : t.kind ≠ .mark .rbrace) (h : Twin w (.plain d) (t :: ts) (t :: us)) :
    Agreed w Stmt.Settled 1 (.plain d) (.plain d) (t :: ts) (t :: us) (.ok (recover lines e (t :: ts)))
      (.ok (recover lines e (t :: us))) := by
  have hskip := twin_skipConstruct (d := d) h 0 0 true t.pos.line rfl fun _ _ u hu => Option.some.inj hu ▸ hbrace
  obtain ⟨ws, hws, hne, hdepth⟩ := hskip.takes
  have huses : Uses 1 d d (t :: ts) (skipConstruct 0 0 true t.pos.line (t :: ts)).rest := by
    refine ⟨Nat.succ_le_succ (skipConstruct_shorter ht t.pos.line ts), ws, ?_, hne, hdepth⟩
    have htakes := Takes.all ws (skipConstruct 0 0 true t.pos.line (t :: ts)).rest
    rwa [← hws] at htakes
  have hsettled : (Stmt.unsupported (linesText lines t.pos.line (skipConstruct 0 0 true t.pos.line (t :: ts)).line)
      e.message t.pos).Settled := ParseError.message_ne he
  have hshorter := Nat.succ_le_succ (skipConstruct_shorter ht t.pos.line us)
  unfold recover
  dsimp only [next]
  rw [hskip.line_eq]
  exact .ok hsettled hskip.twin huses hshorter

end Parser

end CallTrace.Surface
