import CallTrace.Proofs.Parser.Tandem
import CallTrace.Surface.Parser.Statement

/-! # Tokens on the way

What readers of types and of parameters take, token by token.

* `Walked ph ph' ts us`: from `ts` to `us` tokens are taken that lead from the phase `ph` to `ph'`, none of them a
  brace or the end of the file.
* `Parser.Walks`: a reader that succeeds walks so. One rule stands for each way in which readers are put together.
* `Parser.walks_ty`: where a vector type may end in half of a `>>`, the tokens before are in the phase for it.
* `Parser.function_head`: the head of a function holds no braces.
-/

namespace CallTrace.Surface
set_option autoImplicit false

open Surface.Parser (scalar?)

/-- Behind some more tokens. -/
def Phase.run : Phase → List Token → Phase
  | ph, [] => ph
  | ph, t :: ts => (ph.step t.kind).run ts

namespace Phase

theorem run_append (ph : Phase) (ts us : List Token) : ph.run (ts ++ us) = (ph.run ts).run us := by
  induction ts generalizing ph with
  | nil => rfl
  | cons t ts ih => exact ih (ph.step t.kind)

/-- Splitting `>>` changes no phase. -/
theorem run_splits {ts us : List Token} (h : Splits ts us) (ph : Phase) : ph.run us = ph.run ts := by
  induction h generalizing ph with
  | nil => rfl
  | cons t h ih => exact ih (ph.step t.kind)
  | split p h ih => exact ih ((ph.step (.mark .gt)).step (.mark .gt))

end Phase

/-- From `ts` to `us` tokens are taken that lead from `ph` to `ph'`. -/
def Walked (ph ph' : Phase) (ts us : List Token) : Prop :=
  ∃ ws, Takes ts ws us ∧ (∀ t ∈ ws, t.kind ≠ .eof ∧ isBrace t.kind = false) ∧ ph.run ws = ph'

namespace Walked

variable {ph ph₁ ph' : Phase} {ts us vs : List Token}

theorem refl (ph : Phase) (ts : List Token) : Walked ph ph ts ts := ⟨[], .nil ts, nofun, rfl⟩

theorem trans (h : Walked ph ph₁ ts us) (h' : Walked ph₁ ph' us vs) : Walked ph ph' ts vs := by
  obtain ⟨ws, hws, hkinds, rfl⟩ := h
  obtain ⟨xs, hxs, hkinds', rfl⟩ := h'
  refine ⟨ws ++ xs, hws.trans hxs, ?_, ph.run_append ws xs⟩
  intro t ht
  exact (List.mem_append.mp ht).elim (hkinds t) (hkinds' t)

theorem one {t : Token} (hph : ph.step t.kind = ph') (ts : List Token) (heof : t.kind ≠ .eof := by nofun)
    (hbrace : isBrace t.kind = false := by rfl) : Walked ph ph' (t :: ts) ts :=
  ⟨[t], .cons t (.nil ts), fun _ hu => List.eq_of_mem_singleton hu ▸ ⟨heof, hbrace⟩, hph⟩

end Walked

namespace Parser

variable {α β : Type} {ph ph₁ ph' : Phase}

/-- When `p` succeeds, it walks from `ph` to `ph'`. -/
def Walks (ph ph' : Phase) (p : Parser α) : Prop :=
  ∀ ⦃ts : List Token⦄ ⦃a : α⦄ ⦃us : List Token⦄, p ts = .ok (a, us) → Walked ph ph' ts us

/-- As `Walks`, when the token `t` comes next. -/
def WalksAt (t : Token) (ph ph' : Phase) (p : Parser α) : Prop :=
  ∀ ⦃ts : List Token⦄ ⦃a : α⦄ ⦃us : List Token⦄, next ts = t → p ts = .ok (a, us) → Walked ph ph' ts us

/-- A reader that succeeds is one reader behind another. -/
theorem ok_of_bind {p : Parser α} {f : α → Parser β} {ts us : List Token} {b : β}
    (h : (p >>= f) ts = .ok (b, us)) : ∃ a vs, p ts = .ok (a, vs) ∧ f a vs = .ok (b, us) := by
  have hbind : (p >>= f) ts = Except.bind (p ts) fun r => f r.1 r.2 := rfl
  rw [hbind] at h
  generalize hp : p ts = r at h
  cases r with
  | ok r => exact ⟨r.1, r.2, rfl, h⟩
  | error e => cases h

namespace Walks

theorem pure (a : α) : Walks ph ph (Pure.pure a : Parser α) := by
  rintro ts _ _ ⟨⟩
  exact .refl ph ts

theorem fail {e : ParseError} : Walks ph ph' (throw e : Parser α) := by
  rintro ts _ _ ⟨⟩

theorem bind {p : Parser α} {f : α → Parser β} (h : Walks ph ph₁ p) (hf : ∀ a, Walks ph₁ ph' (f a)) :
    Walks ph ph' (p >>= f) := by
  intro ts b us hb
  obtain ⟨a, vs, ha, hb⟩ := ok_of_bind hb
  exact (h ha).trans (hf a hb)

theorem peek {f : Token → Parser β} (hf : ∀ t, WalksAt t ph ph' (f t)) : Walks ph ph' (Parser.peek >>= f) :=
  fun ts _ _ h => hf (next ts) rfl h

theorem acceptBy {γ : Type} {g : Token.Kind → Option α} {r : α → Pos → γ} {f : Option γ → Parser β}
    (hg : ∀ k a, g k = some a → (k ≠ .eof ∧ isBrace k = false) ∧ ph.step k = ph₁)
    (hsome : ∀ c, Walks ph₁ ph' (f (some c))) (hnone : Walks ph ph' (f none)) :
    Walks ph ph' (Parser.acceptBy g r >>= f) := by
  intro ts b us h
  obtain ⟨o, vs, ho, hb⟩ := ok_of_bind h
  unfold Parser.acceptBy at ho
  split at ho
  · split at ho
    · next ha =>
      cases ho
      obtain ⟨⟨heof, hbrace⟩, hph⟩ := hg _ _ ha
      exact (Walked.one hph _ heof hbrace).trans (hsome _ hb)
    · cases ho
      exact hnone hb
  · cases ho
    exact hnone hb

theorem accept {m : Mark} {f : Option Pos → Parser β} (hbrace : isBrace (.mark m) = false)
    (hph : ph.step (.mark m) = ph₁) (hsome : ∀ p, Walks ph₁ ph' (f (some p))) (hnone : Walks ph ph' (f none)) :
    Walks ph ph' (Parser.accept m >>= f) := by
  rw [accept_by]
  refine acceptBy (fun k a ha => ?_) hsome hnone
  rw [markOf_eq ha]
  exact ⟨⟨nofun, hbrace⟩, hph⟩

theorem acceptWord {k : Keyword} {f : Option Pos → Parser β} (hph : ph.step (.word k) = ph₁)
    (hsome : ∀ p, Walks ph₁ ph' (f (some p))) (hnone : Walks ph ph' (f none)) :
    Walks ph ph' (Parser.acceptWord k >>= f) := by
  rw [acceptWord_by]
  refine acceptBy (fun j a ha => ?_) hsome hnone
  rw [wordOf_eq ha]
  exact ⟨⟨nofun, rfl⟩, hph⟩

theorem expect {m : Mark} (place : String) (hbrace : isBrace (.mark m) = false) (hph : ph.step (.mark m) = ph') :
    Walks ph ph' (Parser.expect m place) := by
  unfold Parser.expect
  exact accept hbrace hph (fun p => .pure p) (.peek fun t _ _ _ _ h => by cases h)

end Walks

/-- The token that comes next is taken. -/
theorem WalksAt.advance {t : Token} {f : Unit → Parser β} (hph : ph.step t.kind = ph₁) (hf : Walks ph₁ ph' (f ()))
    (heof : t.kind ≠ .eof := by nofun) (hbrace : isBrace t.kind = false := by rfl) :
    WalksAt t ph ph' (advance >>= f) := by
  intro ts b us hnext h
  cases ts with
  | nil => exact absurd (hnext ▸ rfl) heof
  | cons u ts =>
    obtain rfl : u = t := hnext
    have hb : f () (rest (u :: ts)) = .ok (b, us) := h
    rw [rest_cons heof] at hb
    exact (Walked.one hph ts heof hbrace).trans (hf hb)

theorem walks_expectName : Walks .idle .idle expectName := by
  intro ts a us h
  unfold expectName at h
  split at h
  · cases h
    exact .one rfl _
  · cases h

/-! ## Types -/

theorem walks_tyMarks (e : Nat) : Walks (.closed e) (.closed e) tyMarks := by
  have hmore (o : Option Pos) : Walks (.closed e) (.closed e)
      (accept .amp >>= fun r => (pure (o.isSome, r.isSome) : Parser (Bool × Bool))) :=
    .accept rfl (Phase.closed_amp e) (fun p => .pure _) (.pure _)
  exact .acceptWord (Phase.closed_const e) (fun p => hmore (some p)) (hmore none)

theorem walks_dropLong (e : Nat) : Walks (.closed e) (.closed e) (modify dropLong) := by
  rintro ts _ _ ⟨⟩
  fun_induction dropLong ts with
  | case1 p ts ih | case2 p ts ih =>
    exact (Walked.one (Phase.closed_scalar e rfl) ts).trans ih
  | case3 => exact .refl _ _

theorem walks_closeAngle (e : Nat) : Walks (.base (e + 1)) (.closed e) closeAngle := by
  intro ts a us h
  unfold closeAngle at h
  split at h
  · cases h
    exact .one rfl _
  · next p us =>
    cases h
    exact ⟨[⟨.mark .gt, p⟩], .half p (.nil _), fun t ht => List.eq_of_mem_singleton ht ▸ ⟨nofun, rfl⟩, rfl⟩
  · cases h

/-- A type leads to where it is closed, and so does an element type with its angle brackets. -/
theorem walks_types (n : Nat) :
    (∀ e, Walks (.opened e) (.closed e) (ty n)) ∧ ∀ e, Walks (.name e) (.closed e) (vectorElement n) := by
  induction n with
  | zero => exact ⟨fun _ => .fail, fun _ => .fail⟩
  | succ n ih =>
    obtain ⟨ihty, ihelement⟩ := ih
    refine ⟨fun e => ?_, fun e => ?_⟩
    · have hbase (before : Bool) : Walks (.opened e) (.closed e) (baseTy n before) := by
        refine .peek fun t => ?_
        obtain ⟨kind, p⟩ := t
        cases kind with
        | word k =>
          cases k
          case vector =>
            exact .advance (Phase.opened_vector e) ((ihelement e).bind fun element =>
              (walks_tyMarks e).bind fun _ => .pure _)
          case long =>
            exact .advance (Phase.opened_scalar e rfl) ((walks_dropLong e).bind fun _ =>
              (walks_tyMarks e).bind fun _ => .pure _)
          all_goals first
            | exact .advance (Phase.opened_scalar e rfl) ((walks_tyMarks e).bind fun _ => .pure _)
            | exact fun _ _ _ _ h => nomatch h
        | _ => exact fun _ _ _ _ h => nomatch h
      rw [ty_succ]
      exact .acceptWord (Phase.opened_const e) (fun p => hbase true) (hbase false)
    · unfold vectorElement
      exact (Walks.expect _ rfl rfl).bind fun _ => (ihty (e + 1)).bind fun _ => (walks_closeAngle e).bind fun _ => .pure _

theorem walks_ty (n e : Nat) : Walks (.opened e) (.closed e) (ty n) := (walks_types n).1 e

/-! ## Heads of functions -/

theorem walks_acceptName : Walks .idle .idle acceptName := by
  intro ts a us h
  unfold acceptName at h
  split at h
  · cases h
    exact .one rfl _
  · cases h
    exact .refl _ _

theorem walks_parameter (n : Nat) : Walks .idle .idle (parameter n) :=
  (walks_ty n 0).bind fun _ => walks_acceptName.bind fun _ =>
    .accept rfl rfl (fun _ => (Walks.expect _ rfl rfl).bind fun _ => .pure _) (.pure _)

theorem walks_parametersTail (n : Nat) : Walks .idle .idle (parametersTail n) := by
  induction n with
  | zero => exact .fail
  | succ n ih =>
    unfold parametersTail
    exact (walks_parameter n).bind fun p => .accept rfl rfl (fun _ => ih.bind fun ps => .pure _) (.pure _)

theorem walks_parameters (n : Nat) : Walks .idle .idle (parameters n) := by
  intro ts a us h
  unfold parameters at h
  split at h
  · cases h
    exact .refl _ _
  · cases h
    exact .one rfl _
  · exact walks_parametersTail n h

/-- A mark that has been accepted came next, and otherwise nothing is taken. -/
theorem accept_ok {m : Mark} {ts us : List Token} {o : Option Pos} (h : accept m ts = .ok (o, us)) :
    (∃ p, o = some p ∧ ts = ⟨.mark m, p⟩ :: us) ∨ (o = none ∧ us = ts) := by
  rw [accept_by] at h
  unfold acceptBy at h
  split at h
  · next t us =>
    split at h
    · next hm =>
      cases h
      obtain ⟨k, p⟩ := t
      obtain rfl : k = .mark m := markOf_eq hm
      exact .inl ⟨p, rfl, rfl⟩
    · cases h
      exact .inr ⟨rfl, rfl⟩
  · cases h
    exact .inr ⟨rfl, rfl⟩

theorem expect_ok {m : Mark} {place : String} {ts us : List Token} {p : Pos} (h : expect m place ts = .ok (p, us)) :
    ts = ⟨.mark m, p⟩ :: us := by
  obtain ⟨o, vs, ho, hp⟩ := ok_of_bind h
  rcases accept_ok ho with ⟨q, rfl, rfl⟩ | ⟨rfl, rfl⟩
  · cases hp
    rfl
  · cases hp

/-- A function has a head without braces, an opening brace, its body, and a closing brace. -/
theorem function_ok {lines : List String} {n : Nat} {ts vs : List Token} {f : Function}
    (h : function lines n ts = .ok (.function f, vs)) : ∃ us p, Walked .idle .idle ts (⟨.mark .lbrace, p⟩ :: us) ∧
      statements lines n us = .ok (f.body, ⟨.mark .rbrace, f.finish⟩ :: vs) := by
  obtain ⟨t, ts₁, ht, h₁⟩ := ok_of_bind h
  obtain ⟨⟨name, pos⟩, ts₂, hname, h₂⟩ := ok_of_bind h₁
  obtain ⟨p₁, ts₃, hopen, h₃⟩ := ok_of_bind h₂
  obtain ⟨params, ts₄, hparams, h₄⟩ := ok_of_bind h₃
  obtain ⟨p₂, ts₅, hclose, h₅⟩ := ok_of_bind h₄
  obtain ⟨o, ts₆, ho, h₆⟩ := ok_of_bind h₅
  have hhead : Walked .idle .idle ts ts₅ :=
    (((walks_ty n 0 ht).trans (walks_expectName hname)).trans (Walks.expect _ rfl rfl hopen)).trans
      ((walks_parameters n hparams).trans (Walks.expect _ rfl rfl hclose))
  rcases accept_ok ho with ⟨q, rfl, -⟩ | ⟨rfl, rfl⟩
  · cases h₆
  · obtain ⟨p, us, hbrace, h₇⟩ := ok_of_bind h₆
    obtain ⟨body, ts₇, hbody, h₈⟩ := ok_of_bind h₇
    obtain ⟨finish, ts₈, hfinish, h₉⟩ := ok_of_bind h₈
    cases h₉
    exact ⟨us, p, expect_ok hbrace ▸ hhead, expect_ok hfinish ▸ hbody⟩

end Parser

end CallTrace.Surface
